import LuajitTcpServer.SharedMemory.Session

/-!
# Bounds — reads and writes stay inside their segments, or not

* A write that returns is all or nothing, and inside the out segment (`mmapOutWrite_all_or_nothing`).
* A read copies from the in segment if it starts at position 0.  Past it, it copies from the out
  segment (`mmapInRead_inside_iff`).
-/

namespace LuajitTcpServer
namespace SharedMemory
namespace Session

open ByteMemory Mmap

/-! ## Writing -/

section Writing

variable {b : Backend} {around : Surroundings} {m : Module b} {memory : Memory Cell} {t : Transfer}
  {segment : String} {addr size : Int}

/-- What a write has done to the segment: its bytes are at the position it has sought, the status
came after them, and nothing else has changed. -/
structure Written (p : Process) (memory : Memory Cell) (t : Transfer) (segment : String)
    (size : Int) (p' : Process) (memory' : Memory Cell) : Prop where
  first_offset : 1 ≤ 1 + seek t.pos p.outPos
  last_offset : seek t.pos p.outPos + t.dataLen ≤ size - 1
  data_eq : window (fun offset => memory' ⟨segment, offset⟩) (1 + seek t.pos p.outPos)
    t.dataLen.toNat = t.data.take t.dataLen.toNat
  others : ∀ cell : Cell, cell ≠ ⟨segment, 0⟩ →
    ¬ (cell.segment = segment ∧ 1 + seek t.pos p.outPos ≤ cell.offset ∧
      cell.offset ≤ seek t.pos p.outPos + t.dataLen) → memory' cell = memory cell
  status_eq : mmapOutStatus p' memory' = .ok t.status
  /-- While data bytes are copied, the old status stays. -/
  status_last : ∀ k : Nat, k ≤ t.dataLen → ∃ memory₁,
    copiedOut { p with outPos := seek t.pos p.outPos } memory t.data k = .ok memory₁ ∧
      memory₁ ⟨segment, 0⟩ = memory ⟨segment, 0⟩
  outPos_eq : p' = { p with outPos := seek t.pos p.outPos + t.dataLen }

/-- An `int8_t` holds the status. -/
theorem status_kept {status : Int} (hlow : -128 ≤ status) (hhigh : status ≤ 127) :
    (UInt8.ofInt status).toInt8.toInt = status := by
  have hbits : (UInt8.ofInt status).toBitVec = BitVec.ofInt 8 status := by
    apply BitVec.eq_of_toNat_eq
    rw [BitVec.toNat_ofInt]
    show (status % 2 ^ 8).toNat % 2 ^ 8 = _
    omega
  calc (UInt8.ofInt status).toInt8.toInt
      = (BitVec.ofInt 8 status).toInt := congrArg BitVec.toInt hbits
    _ = status := by
        rw [BitVec.toInt_ofInt, Int.bmod_eq_of_le]
        · simpa using hlow
        · omega

/-- The data bytes of a segment do not include its status. -/
theorem patch_status {memory : Memory Cell} {off : Int} (hoff : 0 ≤ off) (bytes : List UInt8) :
    patch memory (dataCell segment) off bytes ⟨segment, 0⟩ = memory ⟨segment, 0⟩ :=
  patch_frame fun _ hi _ => dataCell_ne_status (Int.le_trans hoff hi) segment

/-- What `copyOut` leaves in memory. -/
def afterCopy (memory : Memory Cell) (segment : String) (off : Int) (bytes : List UInt8)
    (status : Int) : Memory Cell :=
  Function.update (patch memory (dataCell segment) off bytes) ⟨segment, 0⟩ (UInt8.ofInt status)

theorem afterCopy_window {off status : Int} (hoff : 0 ≤ off) (bytes : List UInt8) :
    window (fun offset => afterCopy memory segment off bytes status ⟨segment, offset⟩) (1 + off)
      bytes.length = bytes := by
  have hdata : ∀ i, off ≤ i → afterCopy memory segment off bytes status (dataCell segment i) =
      overlay (fun i => memory (dataCell segment i)) off bytes i := by
    intro i hi
    calc afterCopy memory segment off bytes status (dataCell segment i)
        = patch memory (dataCell segment) off bytes (dataCell segment i) :=
          Function.update_of_ne (dataCell_ne_status (Int.le_trans hoff hi) segment) _ _
      _ = overlay (fun i => memory (dataCell segment i)) off bytes i :=
          congrFun (patch_row (dataCell_injective segment)) i
  calc window (fun offset => afterCopy memory segment off bytes status ⟨segment, offset⟩) (1 + off)
        bytes.length
      = window (fun i => afterCopy memory segment off bytes status (dataCell segment i)) off
          bytes.length := (window_shift statusLen).symm
    _ = window (overlay (fun i => memory (dataCell segment i)) off bytes) off bytes.length :=
        window_congr hdata
    _ = bytes := window_overlay

theorem afterCopy_frame {off status : Int} {bytes : List UInt8} {cell : Cell}
    (hstatus : cell ≠ ⟨segment, 0⟩)
    (hout : ¬ (cell.segment = segment ∧ 1 + off ≤ cell.offset ∧ cell.offset ≤ off + bytes.length)) :
    afterCopy memory segment off bytes status cell = memory cell := by
  calc afterCopy memory segment off bytes status cell
      = patch memory (dataCell segment) off bytes cell := Function.update_of_ne hstatus _ _
    _ = memory cell := by
        apply patch_frame
        rintro i hi hlt rfl
        refine hout ⟨rfl, Int.add_le_add_left hi statusLen, ?_⟩
        simp only [dataCell, statusLen]
        omega

theorem written_copyOut {p : Process} (h : OutMapped p addr segment size) (hpos : 0 ≤ p.outPos)
    (hlow : -128 ≤ t.status) (hhigh : t.status ≤ 127) (hlen : 1 ≤ t.dataLen)
    (hdata : t.dataLen ≤ t.data.length)
    (hfits : seek t.pos p.outPos + t.dataLen ≤ size - statusLen) :
    Written p memory t segment size { p with outPos := seek t.pos p.outPos + t.dataLen }
      (afterCopy memory segment (seek t.pos p.outPos) (t.data.take t.dataLen.toNat) t.status) := by
  have hseek : 0 ≤ seek t.pos p.outPos := seek_nonneg hpos
  have hlength : (t.data.take t.dataLen.toNat).length = t.dataLen.toNat := by
    rw [List.length_take]
    omega
  have hcast : ((t.data.take t.dataLen.toNat).length : Int) = t.dataLen := by omega
  have hsize : 0 < size := by
    simp only [statusLen] at hfits
    omega
  constructor
  · omega
  · exact hfits
  · have hwindow := @afterCopy_window memory segment _ t.status hseek (t.data.take t.dataLen.toNat)
    rwa [hlength] at hwindow
  · intro cell hstatus hout
    exact afterCopy_frame hstatus (by rwa [hcast])
  · simp [mmapOutStatus, h.ptrStatus, h.status_cell hsize, afterCopy, status_kept hlow hhigh]
  · intro k hk
    have hmapped := h.moved (seek t.pos p.outPos) p.inPos
    exact ⟨_, copiedOut_run hmapped hseek hk hfits, patch_status hseek _⟩
  · rfl

/-- Without an out segment the status cannot be set: its address is 0. -/
theorem copyOut_unmapped (h : Sound true m) (hnone : m.process.outAddress = none)
    (hsize : m.process.outSize ≠ none) {outPos len status : Int} {data : List UInt8}
    {r : Int × Process × Memory Cell} :
    copyOut { m.process with outPos := outPos } memory status data len ≠ .ok r := by
  intro hrun
  have hstatus : m.process.outPtrStatus = some 0 := by
    simpa [hnone, getOffsetPointer] using (h.outPtrs rfl hsize).1
  have hpage : m.process.space 0 = none := h.null_page 0 (Int.le_refl 0) (by decide)
  simp only [copyOut, bind_eq_ok] at hrun
  rcases hrun with ⟨ptr, -, bytes, -, memory₁, -, memory₂, hset, -⟩
  simp [mmapStatusOutSet, hstatus, store, hpage] at hset

/-- In every state, a write is all or nothing, and inside its segment, if it returns; and it does
return if there is an out segment. -/
theorem mmapOutWrite_all_or_nothing (h : Reachable around true m) (hlow : -128 ≤ t.status)
    (hhigh : t.status ≤ 127) (hlen : 1 ≤ t.dataLen) (hdata : t.dataLen ≤ t.data.length) :
    (∀ result p' memory',
      mmapOutWrite m.process memory t.status t.pos t.data t.dataLen = .ok (result, p', memory') →
      (result < 0 ∧ p' = m.process ∧ memory' = memory) ∨
      (result = 0 ∧ ∃ addr segment size, m.process.outSize = some size ∧
        OutMapped m.process addr segment size ∧
        Written m.process memory t segment size p' memory')) ∧
    (m.process.outAddress ≠ none → ∃ r,
      mmapOutWrite m.process memory t.status t.pos t.data t.dataLen = .ok r) := by
  have hsound := h.sound
  have houtLen : outLen t.data t.dataLen = .ok t.dataLen := if_neg (by omega)
  rcases Option.eq_none_or_eq_some m.process.outSize with hsize | ⟨size, hsize⟩
  · -- nothing has been created, and `outMaxSize` is `nil`
    have hmax : m.process.outMaxSize = none := by rw [hsound.maxSize_eq, hsize]; rfl
    have hraises : mmapOutWrite m.process memory t.status t.pos t.data t.dataLen =
        .error .luaError := by
      have hlong : ¬ t.dataLen < 1 := by omega
      simp [mmapOutWrite, houtLen, hmax, hlong]
    constructor
    · intro result p' memory' hrun
      cases hraises.symm.trans hrun
    · exact fun haddr => absurd hsize (hsound.created haddr)
  · have hmax : m.process.outMaxSize = some (size - statusLen) := by
      rw [hsound.maxSize_eq, hsize]
      rfl
    rcases @mmapOutWrite_cases m.process memory t _ _ houtLen hmax with
      ⟨result₀, hresult, hrefused⟩ | ⟨-, hfits, hcopy⟩
    · constructor
      · intro result p' memory' hrun
        rw [hrefused] at hrun
        cases hrun
        exact .inl ⟨hresult, rfl, rfl⟩
      · exact fun _ => ⟨_, hrefused⟩
    · rcases Option.eq_none_or_eq_some m.process.outAddress with hnone | ⟨addr, haddr⟩
      · -- the last create has failed
        constructor
        · intro result p' memory' hrun
          rw [hcopy] at hrun
          exact absurd hrun (copyOut_unmapped hsound hnone (by simp [hsize]))
        · exact fun haddr => absurd hnone haddr
      · have hseek := @seek_nonneg t.pos _ hsound.outPos_nonneg
        have hpos : 0 < size := by
          simp only [statusLen] at hfits
          omega
        rcases hsound.outMapped haddr hsize hpos with ⟨segment, hmapped⟩
        have hmapped' := hmapped.moved (seek t.pos m.process.outPos) m.process.inPos
        have hdone := hcopy.trans (copyOut_run hmapped' hseek (by omega) hdata hfits)
        constructor
        · intro result p' memory' hrun
          rw [hdone] at hrun
          cases hrun
          exact .inr ⟨rfl, addr, segment, size, hsize, hmapped,
            written_copyOut hmapped hsound.outPos_nonneg hlow hhigh hlen hdata hfits⟩
        · exact fun _ => ⟨_, hdone⟩

/-- Nothing is mapped. -/
def bare : Surroundings := ⟨fun _ => none, fun _ _ _ => rfl⟩

/-- A segment of 16 bytes under Linux. -/
def created : Module posix :=
  (((start posix bare).outCreate "out" 16 ⟨3, 0, 65536⟩ "out").getD (start posix bare)).addressSet

theorem reachable_created : Reachable bare true created :=
  .addressSet (.outCreate "out" 16 ⟨3, 0, 65536⟩ "out" .start rfl)

theorem mmapOutWrite_returns_created :
    ∃ r, mmapOutWrite created.process (fun _ => 0) 65 (-1) [7, 8] 2 = .ok r :=
  (@mmapOutWrite_all_or_nothing posix bare created (fun _ => 0) ⟨65, -1, [7, 8], 2⟩
    reachable_created (by decide) (by decide) (by decide) (by decide)).2 (by decide +kernel)

/-- A create that `shm_open` has refused. -/
def notCreated : Module posix :=
  (((start posix bare).outCreate "out" 16 ⟨-1, 0, 0⟩ "out").getD (start posix bare)).addressSet

theorem write_without_segment :
    ¬ ∀ (b : Backend) (around : Surroundings) (m : Module b) (memory : Memory Cell) (t : Transfer),
      Reachable around true m → -128 ≤ t.status → t.status ≤ 127 → 1 ≤ t.dataLen →
      t.dataLen ≤ t.data.length → ∃ result p' memory',
        mmapOutWrite m.process memory t.status t.pos t.data t.dataLen = .ok (result, p', memory') ∧
        (result < 0 ∨ result = 0) := by
  intro h
  have hreach : Reachable bare true notCreated :=
    .addressSet (.outCreate "out" 16 ⟨-1, 0, 0⟩ "out" .start rfl)
  rcases h posix bare notCreated (fun _ => 0) ⟨65, -1, [7, 8], 2⟩ hreach (by decide) (by decide)
    (by decide) (by decide) with ⟨result, p', memory', hrun, -⟩
  -- the data would go to address 1
  have hfault : mmapOutWrite notCreated.process (fun _ => 0) 65 (-1) [7, 8] 2 =
      .error .access := by rfl
  cases hfault.symm.trans hrun

end Writing

/-! ## Reading -/

section Reading

variable {b : Backend} {around : Surroundings} {m : Module b} {t : Transfer}

/-- The address is that of a data byte of the in segment. -/
def InsideIn (p : Process) (a : Int) : Prop :=
  ∃ addr size, p.inAddress = some addr ∧ p.inSize = some size ∧ addr + 1 ≤ a ∧ a ≤ addr + (size - 1)

/-- The calls that stay inside: those that are refused, that start at position 0, that copy nothing,
or that run where the bytes of the out segment, by chance, are those of the in segment. -/
def StaysInside (p : Process) (pos dataLen : Int) : Prop :=
  ¬ Passes p pos dataLen ∨ seek pos p.inPos = 0 ∨ dataLen = 0 ∨
    ∀ out, p.outAddress = some out → InsideIn p (out + 1 + seek pos p.inPos) ∧
      InsideIn p (out + seek pos p.inPos + dataLen)

/-- At position 0 the copy begins after the status byte of the in segment. -/
theorem inside_of_start (h : Sound true m) (hpasses : Passes m.process t.pos t.dataLen)
    (hstart : seek t.pos m.process.inPos = 0) :
    ∀ a ∈ copied m.process t.pos t.dataLen, InsideIn m.process a := by
  intro a ha
  have hptr : readPtr { m.process with inPos := seek t.pos m.process.inPos } =
      .ok (m.process.inPtrData.getD 0) := if_pos hstart
  rw [copied, if_pos hpasses, hptr] at ha
  rcases hpasses with ⟨size, hsize, hlen, -, hfits⟩
  rw [Option.mem_def] at hsize
  rcases mem_addresses.1 ha with ⟨hlow, hhigh⟩
  have hpos : 0 < size := by
    simp only [statusLen] at hfits
    omega
  rcases Option.ne_none_iff_exists'.1 (h.connected size hsize hpos) with ⟨addr, haddr⟩
  have hdata := h.inPtr rfl (by simp [hsize])
  simp only [hdata, haddr, getOffsetPointer, statusLen, Option.getD_some] at hlow hhigh hfits
  exact ⟨addr, size, haddr, hsize, hlow, by omega⟩

/-- Past position 0 the copy begins after the same bytes of the out segment. -/
theorem mem_copied_past (hpasses : Passes m.process t.pos t.dataLen)
    (hpast : seek t.pos m.process.inPos ≠ 0) {out a : Int} (hout : m.process.outAddress = some out) :
    a ∈ copied m.process t.pos t.dataLen ↔ out + 1 + seek t.pos m.process.inPos ≤ a ∧
      a ≤ out + seek t.pos m.process.inPos + t.dataLen := by
  have hptr : readPtr { m.process with inPos := seek t.pos m.process.inPos } =
      .ok (out + seek t.pos m.process.inPos + statusLen) := by
    rw [readPtr, if_neg hpast, hout]
    rfl
  rcases hpasses with ⟨size, hsize, hlen, hrest⟩
  rw [copied, if_pos ⟨size, hsize, hlen, hrest⟩, hptr, mem_addresses, Int.toNat_of_nonneg hlen,
    statusLen]
  omega

/-- In every state, a read copies from data bytes of the in segment only, exactly if it starts at
position 0 or is one of those that make no difference. -/
theorem mmapInRead_inside_iff (h : Reachable around true m) :
    (∀ a ∈ copied m.process t.pos t.dataLen, InsideIn m.process a) ↔
      StaysInside m.process t.pos t.dataLen := by
  by_cases hpasses : Passes m.process t.pos t.dataLen
  · by_cases hstart : seek t.pos m.process.inPos = 0
    · exact ⟨fun _ => .inr (.inl hstart), fun _ => inside_of_start h.sound hpasses hstart⟩
    · rcases Option.eq_none_or_eq_some m.process.outAddress with hnone | ⟨out, hout⟩
      · -- the address cannot be computed
        have hcopied : copied m.process t.pos t.dataLen = [] := by
          rw [copied, if_pos hpasses, readPtr, if_neg hstart, hnone]
          rfl
        constructor
        · refine fun _ => .inr (.inr (.inr fun out hout => ?_))
          cases hnone.symm.trans hout
        · intro _ a ha
          rw [hcopied] at ha
          cases ha
      · have hmem := fun a => @mem_copied_past b m t hpasses hstart out a hout
        constructor
        · intro hall
          by_cases hzero : t.dataLen = 0
          · exact .inr (.inr (.inl hzero))
          · have hlen : 0 ≤ t.dataLen := hpasses.choose_spec.2.1
            refine .inr (.inr (.inr fun out' hout' => ?_))
            cases hout.symm.trans hout'
            -- the first and the last address of the copy
            exact ⟨hall _ ((hmem _).2 (by omega)), hall _ ((hmem _).2 (by omega))⟩
        · intro hstays a ha
          rcases (hmem a).1 ha with ⟨hlow, hhigh⟩
          rcases hstays with hrefused | hzero | hempty | hsame
          · exact absurd hpasses hrefused
          · exact absurd hzero hstart
          · omega
          · rcases hsame out hout with ⟨⟨addr, size, haddr, hsize, hfirst, -⟩, hlast⟩
            rcases hlast with ⟨addr', size', haddr', hsize', -, hend⟩
            cases haddr.symm.trans haddr'
            cases hsize.symm.trans hsize'
            exact ⟨addr, size, haddr, hsize, by omega, by omega⟩
  · have hcopied : copied m.process t.pos t.dataLen = [] := if_neg hpasses
    constructor
    · exact fun _ => .inl hpasses
    · intro _ a ha
      rw [hcopied] at ha
      cases ha

/-- Two segments of 16 bytes. -/
def connected : Module posix :=
  ((created.inConnect "in" 16 ⟨3, 0, 131072⟩ "in").getD created).addressSet

theorem reachable_connected : Reachable bare true connected :=
  .addressSet (.inConnect "in" 16 ⟨3, 0, 131072⟩ "in" reachable_created rfl)

theorem mmapInRead_inside_connected :
    StaysInside connected.process 0 4 ∧
      ((∀ a ∈ copied connected.process 0 4, InsideIn connected.process a) ↔
        StaysInside connected.process 0 4) := by
  constructor
  · exact .inr (.inl (by decide +kernel))
  · exact @mmapInRead_inside_iff posix bare connected ⟨65, 0, [0, 0, 0, 0], 4⟩ reachable_connected

/-- The second data byte is read from the out segment. -/
theorem second_byte_strays :
    ¬ ∀ (b : Backend) (around : Surroundings) (m : Module b) (t : Transfer), Reachable around true m →
      ∀ a ∈ copied m.process t.pos t.dataLen, InsideIn m.process a := by
  intro h
  have hcopied : copied connected.process 1 1 = [65538] := by decide +kernel
  rcases h posix bare connected ⟨65, 1, [0], 1⟩ reachable_connected 65538
    (by rw [hcopied]; exact List.mem_singleton_self _) with ⟨addr, size, haddr, hsize, hlow, -⟩
  have hin : connected.process.inAddress = some 131072 := by decide +kernel
  cases hin.symm.trans haddr
  exact absurd hlow (by decide)

end Reading

end Session
end SharedMemory
end LuajitTcpServer
