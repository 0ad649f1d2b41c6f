import Kubeka.Model.Pipe

/-!
# Results through the pipe

The child writes the output of the command, a NUL and the status. However this
stream is cut into pieces, the parent has room for what it copies, and it
finds the status by counting back from the end. When the stream is shorter
than that, it counts back to before the buffer.
-/

namespace Kubeka

variable {s : PipeReader} {bytes : List UInt8}

/-! ### The loop -/

/-- The buffer has received these bytes. Its capacity is always two short of the memory. -/
structure ReaderHolds (s : PipeReader) (bytes : List UInt8) : Prop where
  index : s.index = bytes.length
  size : s.dst.size = s.dstlen + 2
  small : s.dstlen ≤ 2 * (bytes.length + 3)
  holds : s.dst.Holds (bytes ++ [0])

/-- The buffer after a resize has room for a NUL at the index. -/
theorem resizeBuffer_spec (fresh : ℕ → ℕ → UInt8) {dst : Buffer UInt8} {len : ℕ} (index : ℕ)
    (hsize : dst.size = len + 2 ∨ len = 0) (hholds : dst.Holds bytes)
    (hlen : bytes.length ≤ index) :
    (resizeBuffer fresh dst len index).1.size = (resizeBuffer fresh dst len index).2 + 2 ∧
      index + 1 ≤ (resizeBuffer fresh dst len index).1.size ∧
        (resizeBuffer fresh dst len index).2 ≤ max len (2 * (index + 2)) ∧
          (resizeBuffer fresh dst len index).1.Holds bytes := by
  unfold resizeBuffer
  simp only
  split_ifs with hfits
  · have hsize' : dst.size = len + 2 := hsize.resolve_right (by omega)
    refine ⟨hsize', ?_, le_max_left _ _, hholds⟩
    simp only
    omega
  · refine ⟨rfl, ?_, ?_, hholds.resize ?_ _⟩
    · simp only [Buffer.resize]
      omega
    · simp only
      omega
    · omega

/-- One piece is copied behind the others. -/
theorem ReaderHolds.readChunk (h : ReaderHolds s bytes) (fresh : ℕ → ℕ → UInt8)
    (buf : List UInt8) :
    ∃ s', readChunk fresh s buf = some s' ∧ ReaderHolds s' (bytes ++ buf) := by
  obtain ⟨hsize, hroom, hsmall, hholds⟩ := resizeBuffer_spec fresh
    (s.index + buf.length + 1) (.inl h.size) h.holds.of_append (by rw [h.index]; omega)
  unfold Kubeka.readChunk
  generalize resizeBuffer fresh s.dst s.dstlen (s.index + buf.length + 1) = r at *
  obtain ⟨dst, dstlen⟩ := r
  have hindex := h.index
  simp only at hsize hroom hsmall hholds
  obtain ⟨dst₁, hwrite₁, hsize₁, hholds₁⟩ := hholds.write buf (by omega)
  have hlength : s.index + buf.length = (bytes ++ buf).length := by
    rw [hindex, List.length_append]
  obtain ⟨dst₂, hwrite₂, hsize₂, hholds₂⟩ := hholds₁.write [0] (by
    rw [← hlength, List.length_singleton]
    omega)
  refine ⟨{ dst := dst₂, dstlen := dstlen, index := s.index + buf.length }, ?_, hlength, ?_, ?_,
    hholds₂⟩
  · simp only [hindex, hwrite₁, Option.bind_some]
    rw [← hindex, hlength, hwrite₂, Option.map_some]
  · simp only
    omega
  · have hbefore := h.small
    simp only [List.length_append]
    omega

theorem ReaderHolds.readChunks (h : ReaderHolds s bytes) (fresh : ℕ → ℕ → UInt8)
    {bufs : List (List UInt8)} (hbufs : ∀ buf ∈ bufs, buf ≠ []) :
    ∃ s', readChunks fresh s bufs = some s' ∧ ReaderHolds s' (bytes ++ bufs.flatten) := by
  induction bufs generalizing s bytes with
  | nil => exact ⟨s, rfl, by rwa [List.flatten_nil, List.append_nil]⟩
  | cons buf bufs ih =>
    obtain ⟨hbuf, hbufs⟩ := List.forall_mem_cons.mp hbufs
    obtain ⟨s₁, hread, hholds⟩ := h.readChunk fresh buf
    obtain ⟨s₂, hreads, hholds⟩ := ih hholds hbufs
    refine ⟨s₂, ?_, ?_⟩
    · rw [Kubeka.readChunks, if_neg hbuf, hread, Option.bind_some, hreads]
    · rwa [List.flatten_cons, ← List.append_assoc]

/-! ### The end of the stream -/

theorem subSize_of_le {n k : ℕ} (h : k ≤ n) : subSize n k = n - k := if_pos h

/-- With room for a NUL and a status, nothing wraps around. -/
theorem subSize_trailer {n : ℕ} (h : 5 ≤ n) :
    subSize n 4 = n - 4 ∧ subSize (subSize n 4) 1 = n - 5 := by
  have hfour : subSize n 4 = n - 4 := subSize_of_le (by omega)
  have hfive : subSize (n - 4) 1 = n - 4 - 1 := subSize_of_le (by omega)
  rw [hfour, hfive]
  omega

/-- What the parent makes of a stream, whatever the pieces in which it comes. -/
structure Decoded (outside : CInt) (bytes : List UInt8) (r : Received) : Prop where
  index : r.index = subSize bytes.length 4
  dstlen : r.dstlen = subSize (subSize bytes.length 4) 1
  ret : r.ret = if bytes.length < 4 then outside else intOf (bytes.drop (bytes.length - 4))
  holds : r.dst.Holds (bytes ++ [0])

theorem ReaderHolds.decoded (h : ReaderHolds s bytes) (outside : CInt) :
    Decoded outside bytes (decodeTrailer outside s) := by
  have hindex := h.index
  refine ⟨by rw [decodeTrailer, hindex], by rw [decodeTrailer, hindex], ?_, h.holds⟩
  unfold decodeTrailer
  simp only [hindex]
  have hsize := h.size
  have hsmall := h.small
  by_cases hshort : bytes.length < 4
  · have hsub : subSize bytes.length 4 = 2 ^ 64 + bytes.length - 4 := if_neg (by omega)
    rw [if_pos hshort, if_neg (by omega)]
  · have hsub : subSize bytes.length 4 = bytes.length - 4 := subSize_of_le (by omega)
    have hfits := h.holds.fits
    rw [List.length_append, List.length_singleton] at hfits
    rw [if_neg hshort, hsub, if_pos (by omega)]
    have hsplit : bytes ++ [0] =
        bytes.take (bytes.length - 4) ++ (bytes.drop (bytes.length - 4) ++ [0]) := by
      rw [← List.append_assoc, List.take_append_drop]
    have hholds := h.holds
    rw [hsplit] at hholds
    have hslice := hholds.slice
    rw [List.length_take, List.length_drop, Nat.min_eq_left (by omega)] at hslice
    rw [← hslice]
    congr 2
    omega

theorem receiveResult_decoded (fresh : ℕ → ℕ → UInt8) (outside : CInt) {bufs : List (List UInt8)}
    (hbufs : ∀ buf ∈ bufs, buf ≠ []) :
    ∃ r, receiveResult fresh outside bufs = some r ∧ Decoded outside bufs.flatten r := by
  have hnil : Buffer.Holds { size := 0, cells := fun _ => (0 : UInt8) } [] := Buffer.holds_nil _
  obtain ⟨hsize, hroom, hsmall, hholds⟩ := resizeBuffer_spec fresh 0 (.inr rfl) hnil le_rfl
  unfold receiveResult
  generalize resizeBuffer fresh { size := 0, cells := fun _ => 0 } 0 0 = r at *
  obtain ⟨dst, dstlen⟩ := r
  simp only at hsize hroom hsmall hholds
  obtain ⟨dst₁, hwrite, hsize₁, hholds₁⟩ := hholds.write [0] (by simpa using hroom)
  have hstart : ReaderHolds { dst := dst₁, dstlen := dstlen, index := 0 } [] := by
    refine ⟨rfl, by simp only; omega, ?_, hholds₁⟩
    simp only [List.length_nil]
    omega
  obtain ⟨s, hread, hholds⟩ := hstart.readChunks fresh hbufs
  refine ⟨decodeTrailer outside s, ?_, hholds.decoded outside⟩
  rw [List.length_nil] at hwrite
  simp only [hwrite, Option.bind_some, hread, Option.map_some]

/-! ### Statuses -/

theorem intOf_bytesOf (rc : CInt) : intOf (bytesOf rc) = rc := by
  have hrange : List.range 4 = [0, 1, 2, 3] := by decide
  have hlt := rc.isLt
  apply BitVec.eq_of_toNat_eq
  simp only [intOf, bytesOf, hrange, List.map_cons, List.map_nil, List.foldr_cons, List.foldr_nil,
    UInt8.toNat_ofNat', BitVec.toNat_ofNat]
  omega

theorem length_bytesOf (rc : CInt) : (bytesOf rc).length = 4 := by simp [bytesOf]

/-- Four bytes are the status 0 when all of them are. -/
theorem intOf_eq_zero_iff {bytes : List UInt8} (h : bytes.length = 4) :
    intOf bytes = 0 ↔ ∀ b ∈ bytes, b = 0 := by
  obtain ⟨a, b, c, d, rfl⟩ : ∃ a b c d, bytes = [a, b, c, d] := by
    match bytes, h with
    | [a, b, c, d], _ => exact ⟨a, b, c, d, rfl⟩
  have ha := a.toNat_lt
  have hb := b.toNat_lt
  have hc := c.toNat_lt
  have hd := d.toNat_lt
  have hzero (b : UInt8) : b = 0 ↔ b.toNat = 0 := by
    rw [← UInt8.toNat_inj]
    rfl
  have hvalue : intOf [a, b, c, d] = 0 ↔
      (a.toNat + 256 * (b.toNat + 256 * (c.toNat + 256 * (d.toNat + 256 * 0)))) % 2 ^ 32 = 0 := by
    rw [← BitVec.toNat_inj]
    simp only [intOf, List.foldr_cons, List.foldr_nil, BitVec.toNat_ofNat]
    rfl
  rw [hvalue]
  simp only [List.forall_mem_cons, hzero, List.not_mem_nil, false_implies, implies_true, and_true]
  omega

/-! ### Complete streams -/

/-- The parent of a call that comes to `fork` returns the status that it received. -/
theorem kbexecShellRun_ret {sys : Syscalls} {st : Symtab} (hforks : Forks sys st)
    (command : CStr) : (kbexecShellRun sys st command).ret = receivedStatus sys := by
  obtain ⟨hsrc, hids, hdir, hpipe, hfork⟩ := hforks
  have hret (wdir : CStr) (uid : ℕ) (acts : List Act) (made : Option CStr) :
      (forkExec sys wdir uid command acts made).ret = receivedStatus sys := by
    simp [forkExec, hpipe, hfork, ExecRun.ret, cleanup, Finish.ret]
  obtain ⟨⟨id, fname, line⟩, hsrc⟩ := Option.ne_none_iff_exists'.mp hsrc
  obtain ⟨⟨uid, gid⟩, hids⟩ := Option.ne_none_iff_exists'.mp hids
  simp only [kbexecShellRun, hsrc, hids]
  by_cases hwdir : kbnodeGetvalueFirst st kbnodeKeyWdir = []
  · obtain ⟨hmkdtemp, hchown⟩ := hdir hwdir
    simp only [hwdir, hmkdtemp, hchown]
    exact hret _ _ _ _
  · simp only [ne_eq, hwdir, not_false_eq_true, if_true]
    exact hret _ _ _ _

/-- The last four bytes of a complete stream are the status. -/
theorem receivedStatus_of_complete {sys : Syscalls} {output : List UInt8} {rc : CInt}
    (hstream : sys.received.flatten = output ++ (0 :: bytesOf rc)) : receivedStatus sys = rc := by
  have hlength : (output ++ 0 :: bytesOf rc).length = output.length + 5 := by
    simp [length_bytesOf]
  have hdrop : (output ++ 0 :: bytesOf rc).drop (output.length + 5 - 4) = bytesOf rc := by
    rw [List.append_cons, List.drop_left' (by simp)]
  rw [receivedStatus, hstream, hlength, if_neg (by omega), hdrop, intOf_bytesOf]

/-- A stream that is received whole gives back the output and the status, in whatever pieces it
comes, and the parent writes nowhere outside of its buffer. -/
theorem kbexecShell_roundTrip {sys : Syscalls} {st : Symtab} (hforks : Forks sys st)
    (command : CStr) (hbufs : ∀ buf ∈ sys.received, buf ≠ []) {output : List UInt8} {rc : CInt}
    (hstream : sys.received.flatten = output ++ (0 :: bytesOf rc)) (fresh : ℕ → ℕ → UInt8) :
    (kbexecShellRun sys st command).ret = rc ∧
      ∃ r, receiveResult fresh sys.outside sys.received = some r ∧ r.ret = rc ∧
        r.dstlen = output.length ∧ r.dst.Holds (output ++ [0]) := by
  obtain ⟨r, hreceive, hdecoded⟩ := receiveResult_decoded fresh sys.outside hbufs
  have hstatus := receivedStatus_of_complete hstream
  refine ⟨by rw [kbexecShellRun_ret hforks, hstatus], r, hreceive, hdecoded.ret.trans hstatus,
    ?_, ?_⟩
  · have hlength : sys.received.flatten.length = output.length + 5 := by
      simp [hstream, length_bytesOf]
    rw [hdecoded.dstlen, (subSize_trailer (by omega)).2, hlength]
    omega
  · have hsplit : sys.received.flatten ++ [0] = (output ++ [0]) ++ (bytesOf rc ++ [0]) := by
      simp [hstream]
    have hholds := hdecoded.holds
    rw [hsplit] at hholds
    exact hholds.of_append

/-- Output in two pieces, and the status 3. -/
def twoPieces : Syscalls := { allSucceed with received := [[104, 105], [0, 3, 0, 0, 0]] }

/-- A node with a directory of its own. -/
def workingNode : Symtab :=
  symtabOf [(kbnodeKeyId, ["n".toList]), (kbnodeKeyFname, ["f".toList]),
    (kbnodeKeyLine, ["1".toList]), (kbnodeKeyWdir, ["/srv".toList])]

theorem workingNode_forks {sys : Syscalls} (hpipe : sys.pipe = true) (hfork : sys.fork = true) :
    Forks sys workingNode := by
  have hsrc : kbnodeGetSrcdef workingNode ≠ none := by decide +kernel
  have huser : kbnodeGetvalueFirst workingNode kbnodeKeyWuser = [] := by decide +kernel
  have hdir : kbnodeGetvalueFirst workingNode kbnodeKeyWdir ≠ [] := by decide +kernel
  refine ⟨hsrc, ?_, fun h => absurd h hdir, hpipe, hfork⟩
  simp [execIds, huser]

theorem twoPieces_roundTrip :
    (kbexecShellRun twoPieces workingNode "true".toList).ret = 3 ∧
      ∃ r, receiveResult (fun _ _ => 0) twoPieces.outside twoPieces.received = some r ∧
        r.ret = 3 ∧ r.dstlen = 2 ∧ r.dst.Holds [104, 105, 0] := by
  have hstream : twoPieces.received.flatten = [104, 105] ++ (0 :: bytesOf 3) := by decide
  exact kbexecShell_roundTrip (workingNode_forks rfl rfl) "true".toList (by decide) hstream _

/-! ### Truncated streams -/

/-- The status is read from bytes that were received, no more output is reported than was received,
and the call fails. -/
structure HandledSafely (fresh : ℕ → ℕ → UInt8) (sys : Syscalls) (st : Symtab) (command : CStr) :
    Prop where
  decoded : ∃ r, receiveResult fresh sys.outside sys.received = some r ∧
    r.index + 4 ≤ sys.received.flatten.length ∧ r.dstlen ≤ sys.received.flatten.length
  failed : (kbexecShellRun sys st command).ret ≠ 0

/-- A stream is handled safely exactly when it has room for a NUL and a status, and the last four
bytes are not those of the status 0. -/
theorem kbexecShell_handledSafely_iff {sys : Syscalls} {st : Symtab} (hforks : Forks sys st)
    (command : CStr) (hbufs : ∀ buf ∈ sys.received, buf ≠ []) (fresh : ℕ → ℕ → UInt8) :
    HandledSafely fresh sys st command ↔ 5 ≤ sys.received.flatten.length ∧
      ∃ b ∈ sys.received.flatten.drop (sys.received.flatten.length - 4), b ≠ 0 := by
  obtain ⟨r, hreceive, hdecoded⟩ := receiveResult_decoded fresh sys.outside hbufs
  have hret : (kbexecShellRun sys st command).ret = r.ret := by
    rw [kbexecShellRun_ret hforks, hdecoded.ret, receivedStatus]
  have hzero (hlong : 5 ≤ sys.received.flatten.length) : r.ret = 0 ↔
      ∀ b ∈ sys.received.flatten.drop (sys.received.flatten.length - 4), b = 0 := by
    rw [hdecoded.ret, if_neg (by omega), intOf_eq_zero_iff (by rw [List.length_drop]; omega)]
  have hindex := hdecoded.index
  have hdstlen := hdecoded.dstlen
  constructor
  · intro h
    obtain ⟨r', hreceive', hin, hle⟩ := h.decoded
    obtain rfl := Option.some.inj (hreceive.symm.trans hreceive')
    have hlong : 5 ≤ sys.received.flatten.length := by
      unfold subSize at hindex hdstlen
      split_ifs at hindex hdstlen <;> omega
    refine ⟨hlong, ?_⟩
    have hfailed := h.failed
    rw [hret, Ne, hzero hlong] at hfailed
    push Not at hfailed
    exact hfailed
  · rintro ⟨hlong, b, hb, hne⟩
    refine ⟨⟨r, hreceive, ?_, ?_⟩, ?_⟩
    · rw [hindex, (subSize_trailer hlong).1]
      omega
    · rw [hdstlen, (subSize_trailer hlong).2]
      omega
    · rw [hret, Ne, hzero hlong]
      intro hall
      exact hne (hall b hb)

/-- A child that cannot enter the directory sends nothing, and the parent takes its status from in
front of the buffer. -/
def nothingSent (outside : CInt) : Syscalls :=
  { allSucceed with chdir := false, received := [], outside := outside }

theorem nothingSent_not_handledSafely :
    (kbexecShellRun (nothingSent 0) workingNode "true".toList).ret = 0 ∧
      ∀ outside, ¬ HandledSafely (fun _ _ => 0) (nothingSent outside) workingNode
        "true".toList := by
  refine ⟨by decide +kernel, ?_⟩
  rintro outside ⟨⟨r, hreceive, hin, -⟩, -⟩
  have hbufs : ∀ buf ∈ (nothingSent outside).received, buf ≠ [] := by simp [nothingSent]
  obtain ⟨r', hreceive', hdecoded⟩ := receiveResult_decoded (fun _ _ => 0) outside hbufs
  obtain rfl := Option.some.inj (hreceive.symm.trans hreceive')
  have hunder : subSize 0 4 + 4 ≤ 0 := hdecoded.index ▸ hin
  exact absurd hunder (by decide)

theorem twoPieces_handledSafely :
    HandledSafely (fun _ _ => 0) twoPieces workingNode "true".toList :=
  (kbexecShell_handledSafely_iff (workingNode_forks rfl rfl) "true".toList (by decide) _).mpr
    (by decide)

end Kubeka
