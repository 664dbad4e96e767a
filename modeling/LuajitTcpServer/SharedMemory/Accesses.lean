import Mathlib.Tactic.Common
import LuajitTcpServer.SharedMemory.Mmap

/-!
# Accesses — which bytes a write and a read touch

* A write is refused and changes nothing, or it is `copyOut` at the position it seeks
  (`mmapOutWrite_cases`), which goes to the data bytes of the out segment (`copyOut_run`).
* A read is refused, or it is `copyIn` at the position it seeks (`mmapInRead_cases`).  `copied` are
  the addresses that it copies from (`mmapInRead_copies`).
-/

namespace LuajitTcpServer
namespace SharedMemory
namespace Mmap

open ByteMemory

/-! ## Results -/

section Results

variable {α β : Type}

@[simp] theorem known_some (a : α) : known (some a) = .ok a := rfl

@[simp] theorem known_none : known (none : Option α) = .error .luaError := rfl

@[simp] theorem accessed_some (a : α) : accessed (some a) = .ok a := rfl

@[simp] theorem accessed_none : accessed (none : Option α) = .error .access := rfl

@[simp] theorem known_eq_ok {value : Option α} {a : α} : known value = .ok a ↔ value = some a := by
  cases value <;> simp

@[simp] theorem accessed_eq_ok {value : Option α} {a : α} :
    accessed value = .ok a ↔ value = some a := by
  cases value <;> simp

@[simp] theorem bind_ok (a : α) (f : α → Except Fault β) : (.ok a >>= f) = f a := rfl

@[simp] theorem bind_error (e : Fault) (f : α → Except Fault β) : (.error e >>= f) = .error e := rfl

@[simp] theorem pure_eq_ok (a : α) : (pure a : Except Fault α) = .ok a := rfl

/-- A sequence returns when its first part does, and the rest after it. -/
theorem bind_eq_ok {x : Except Fault α} {f : α → Except Fault β} {b : β} :
    (x >>= f) = .ok b ↔ ∃ a, x = .ok a ∧ f a = .ok b := by
  cases x <;> simp

theorem firstBytes_eq_some {data bytes : List UInt8} {len : Int}
    (h : firstBytes data len = some bytes) : len ≤ data.length := by
  unfold firstBytes at h
  split at h
  · assumption
  · cases h

theorem replaceFirst_eq_some {data bytes data' : List UInt8}
    (h : replaceFirst data bytes = some data') : data' = bytes ++ data.drop bytes.length := by
  unfold replaceFirst at h
  split at h
  · cases h
    rfl
  · cases h

end Results

/-! ## Calls -/

/-- The arguments of a call. -/
structure Transfer where
  status : Int
  pos : Int
  data : List UInt8
  dataLen : Int

/-- The position a call starts at. -/
def seek (pos cur : Int) : Int := if pos > append then pos else cur

theorem seek_nonneg {pos cur : Int} (hcur : 0 ≤ cur) : 0 ≤ seek pos cur := by
  unfold seek append
  split
  · omega
  · exact hcur

/-! ## Mapped segments -/

/-- The out segment of a process, after `mmapOutCreate` and `mmapAddressSet`. -/
structure OutMapped (p : Process) (addr : Int) (segment : String) (size : Int) : Prop where
  address : p.outAddress = some addr
  ptrStatus : p.outPtrStatus = some addr
  ptrData : p.outPtrData = some (addr + statusLen)
  maxSize : p.outMaxSize = some (size - statusLen)
  maps : Maps p.space addr (Cell.mk segment) size

/-- The in segment of a process, after `mmapInConnect` and `mmapAddressSet`. -/
structure InMapped (p : Process) (addr : Int) (segment : String) (size : Int) : Prop where
  ptrData : p.inPtrData = some (addr + statusLen)
  inSize_eq : p.inSize = some size
  maps : Maps p.space addr (Cell.mk segment) size

/-- Data byte `i` of a segment. -/
def dataCell (segment : String) (i : Int) : Cell := ⟨segment, statusLen + i⟩

section Segments

variable {p : Process} {space : Space Cell} {row : Int → Cell} {segment : String}
  {addr size addr' size' : Int}

theorem dataCell_injective (segment : String) : Function.Injective (dataCell segment) := by
  intro i j h
  simpa [dataCell] using h

theorem dataCell_ne_status {i : Int} (hi : 0 ≤ i) (own : String) :
    dataCell segment i ≠ ⟨own, 0⟩ := by
  intro h
  have hoffset : statusLen + i = 0 := congrArg Cell.offset h
  simp only [statusLen] at hoffset
  omega

theorem maps_data (h : Maps space addr (Cell.mk segment) size) :
    Maps space (addr + statusLen) (dataCell segment) (size - statusLen) :=
  h.drop (by decide)

theorem maps_mapAt (addr : Int) (segment : String) (size : Int) (space : Space Cell) :
    Maps (mapAt addr segment size space) addr (Cell.mk segment) size := by
  intro i hi hlt
  have hin : addr ≤ addr + i ∧ addr + i < addr + size := by omega
  have hoffset : addr + i - addr = i := by omega
  simp only [mapAt, if_pos hin, hoffset]

/-- A mapping is still there after another one has been made beside it. -/
theorem maps_mapAt_of_apart (h : Maps space addr row size)
    (hapart : addr + size ≤ addr' ∨ addr' + size' ≤ addr) :
    Maps (mapAt addr' segment size' space) addr row size := by
  intro i hi hlt
  have hout : ¬ (addr' ≤ addr + i ∧ addr + i < addr' + size') := by omega
  simp only [mapAt, if_neg hout]
  exact h i hi hlt

/-- The positions do not matter. -/
theorem OutMapped.moved (h : OutMapped p addr segment size) (outPos inPos : Int) :
    OutMapped { p with outPos := outPos, inPos := inPos } addr segment size where
  address := h.address
  ptrStatus := h.ptrStatus
  ptrData := h.ptrData
  maxSize := h.maxSize
  maps := h.maps

theorem OutMapped.status_cell (h : OutMapped p addr segment size) (hsize : 0 < size) :
    p.space addr = some ⟨segment, 0⟩ := by
  simpa using h.maps 0 (Int.le_refl 0) hsize

end Segments

/-! ## Writing -/

section Writing

variable {p p' : Process} {memory memory' : Memory Cell} {addr size : Int} {segment : String}
  {t : Transfer} {result len : Int}

/-- `outPtrStatus[0]`, an `int8_t`. -/
def mmapOutStatus (p : Process) (memory : Memory Cell) : Except Fault Int := do
  let ptr ← known p.outPtrStatus
  accessed ((p.space ptr).map fun cell => (memory cell).toInt8.toInt)

/-- The memory when `ffi.copy` has copied the first `k` bytes. -/
def copiedOut (p : Process) (memory : Memory Cell) (data : List UInt8) (k : Nat) :
    Except Fault (Memory Cell) := do
  let ptr ← writePtr p
  accessed (store p.space memory ptr (data.take k))

/-- The status is set after the last byte has been copied. -/
theorem copyOut_eq {data : List UInt8} {status : Int} (hdata : len ≤ data.length) :
    copyOut p memory status data len = (do
      let memory ← copiedOut p memory data len.toNat
      let memory ← mmapStatusOutSet p memory status
      pure (0, { p with outPos := p.outPos + len }, memory)) := by
  cases hptr : writePtr p with
  | error fault =>
      simp [copyOut, copiedOut, hptr]
  | ok ptr =>
      simp [copyOut, copiedOut, hptr, firstBytes, hdata]

theorem mmapOutWrite_cases {outMaxSize : Int} (hlen : outLen t.data t.dataLen = .ok len)
    (hmax : p.outMaxSize = some outMaxSize) :
    (∃ result, result < 0 ∧
      mmapOutWrite p memory t.status t.pos t.data t.dataLen = .ok (result, p, memory)) ∨
    (1 ≤ len ∧ seek t.pos p.outPos + len ≤ outMaxSize ∧
      mmapOutWrite p memory t.status t.pos t.data t.dataLen =
        copyOut { p with outPos := seek t.pos p.outPos } memory t.status t.data len) := by
  unfold mmapOutWrite
  rw [hlen, hmax]
  by_cases hempty : len < 1
  · exact .inl ⟨-4, by decide, if_pos hempty⟩
  · by_cases hseek : t.pos > append
    · have hexplicit : seek t.pos p.outPos = t.pos := if_pos hseek
      rw [hexplicit]
      by_cases hpast : t.pos > outMaxSize - 1
      · refine .inl ⟨-2, by decide, ?_⟩
        simp only [bind_ok, known_some, pure_eq_ok, if_neg hempty, if_pos hseek, if_pos hpast]
      · by_cases hlong : t.pos + len > outMaxSize
        · refine .inl ⟨-3, by decide, ?_⟩
          simp only [bind_ok, known_some, pure_eq_ok, if_neg hempty, if_pos hseek, if_neg hpast,
            if_pos hlong]
        · refine .inr ⟨by omega, by omega, ?_⟩
          simp only [bind_ok, known_some, if_neg hempty, if_pos hseek, if_neg hpast, if_neg hlong]
    · have hrunning : seek t.pos p.outPos = p.outPos := if_neg hseek
      rw [hrunning]
      by_cases hlong : p.outPos + len > outMaxSize
      · refine .inl ⟨-3, by decide, ?_⟩
        simp only [bind_ok, known_some, pure_eq_ok, if_neg hempty, if_neg hseek, if_pos hlong]
      · refine .inr ⟨by omega, by omega, ?_⟩
        simp only [bind_ok, known_some, if_neg hempty, if_neg hseek, if_neg hlong]
        rw [← hmax]

/-- A call changes no variable but the position. -/
theorem copyOut_process {data : List UInt8} {status : Int}
    (hrun : copyOut p memory status data len = .ok (result, p', memory')) :
    result = 0 ∧ p' = { p with outPos := p.outPos + len } := by
  simp only [copyOut, bind_eq_ok] at hrun
  rcases hrun with ⟨ptr, -, bytes, -, memory₁, -, memory₂, -, hresult⟩
  cases hresult
  exact ⟨rfl, rfl⟩

theorem mmapOutWrite_process (hpos : 0 ≤ p.outPos)
    (hrun : mmapOutWrite p memory t.status t.pos t.data t.dataLen = .ok (result, p', memory')) :
    ∃ outPos, 0 ≤ outPos ∧ p' = { p with outPos := outPos } := by
  have hseek : 0 ≤ seek t.pos p.outPos := seek_nonneg hpos
  have hbegun := hrun
  simp only [mmapOutWrite, bind_eq_ok] at hbegun
  rcases hbegun with ⟨len, hlen, hbegun⟩
  rcases Option.eq_none_or_eq_some p.outMaxSize with hmax | ⟨outMaxSize, hmax⟩
  · -- only the first check comes before the use of `outMaxSize`
    by_cases hempty : len < 1
    · rw [if_pos hempty] at hbegun
      cases hbegun
      exact ⟨p.outPos, hpos, rfl⟩
    · simp [hempty, hmax] at hbegun
  · rcases @mmapOutWrite_cases p memory t len _ hlen hmax with
      ⟨_, -, hrefused⟩ | ⟨hone, -, hcopy⟩
    · rw [hrefused] at hrun
      cases hrun
      exact ⟨p.outPos, hpos, rfl⟩
    · rw [hcopy] at hrun
      rcases copyOut_process hrun with ⟨-, rfl⟩
      exact ⟨seek t.pos p.outPos + len, by omega, rfl⟩

/-! ### The bytes of a write -/

theorem mmapStatusOutSet_run (h : OutMapped p addr segment size) (hsize : 0 < size) (stat : Int) :
    mmapStatusOutSet p memory stat =
      .ok (Function.update memory ⟨segment, 0⟩ (UInt8.ofInt stat)) := by
  simp [mmapStatusOutSet, h.ptrStatus, store, h.status_cell hsize]

/-- Both ways of finding the address lead to the data bytes from the running position on. -/
theorem writePtr_run (h : OutMapped p addr segment size) :
    writePtr p = .ok (addr + statusLen + p.outPos) := by
  unfold writePtr
  by_cases hzero : p.outPos = 0
  · simp [hzero, h.ptrData]
  · simp [hzero, h.address, Except.map]

theorem copiedOut_run (h : OutMapped p addr segment size) (hpos : 0 ≤ p.outPos)
    {data : List UInt8} {k : Nat} (hk : (k : Int) ≤ len)
    (hfits : p.outPos + len ≤ size - statusLen) :
    copiedOut p memory data k = .ok (patch memory (dataCell segment) p.outPos (data.take k)) := by
  have hlen : ((data.take k).length : Int) ≤ len := by
    have htake := List.length_take_le k data
    omega
  have hstore := @store_maps _ _ memory _ _ _ _ _ (maps_data h.maps) (data.take k) hpos (by omega)
  simp [copiedOut, writePtr_run h, hstore]

/-- A write that fits returns 0. -/
theorem copyOut_run (h : OutMapped p addr segment size) (hpos : 0 ≤ p.outPos)
    {data : List UInt8} {status : Int} (hlen : 0 ≤ len) (hdata : len ≤ data.length)
    (hfits : p.outPos + len ≤ size - statusLen) :
    copyOut p memory status data len =
      .ok (0, { p with outPos := p.outPos + len },
        Function.update (patch memory (dataCell segment) p.outPos (data.take len.toNat))
          ⟨segment, 0⟩ (UInt8.ofInt status)) := by
  have hsize : 0 < size := by
    simp only [statusLen] at hfits
    omega
  have hcopied := @copiedOut_run p memory addr size segment len h hpos data len.toNat (by omega) hfits
  rw [copyOut_eq hdata, hcopied]
  simp [mmapStatusOutSet_run h hsize]

end Writing

/-! ## Reading -/

section Reading

variable {p p' : Process} {memory memory' : Memory Cell} {t : Transfer} {result : Int}
  {data : List UInt8}

/-- The checks of `mmapInRead` let a call go on to its copy. -/
def Passes (p : Process) (pos dataLen : Int) : Prop :=
  ∃ inSize ∈ p.inSize, 0 ≤ dataLen ∧ (pos > append → pos ≤ inSize - statusLen - 1) ∧
    seek pos p.inPos + dataLen ≤ inSize - statusLen

instance (p : Process) (pos dataLen : Int) : Decidable (Passes p pos dataLen) :=
  inferInstanceAs (Decidable (∃ inSize ∈ p.inSize, _))

/-- The addresses that `mmapInRead` copies from. -/
def copied (p : Process) (pos dataLen : Int) : List Int :=
  if Passes p pos dataLen then
    match readPtr { p with inPos := seek pos p.inPos } with
    | .ok ptr => addresses ptr dataLen.toNat
    | .error _ => []
  else []

/-- What a copy has done: it has found bytes where `readPtr` points to, stored them at the beginning
of its buffer, and set the status. -/
theorem copyIn_eq_ok {status dataLen : Int} {buffer : List UInt8}
    (hrun : copyIn p memory status buffer dataLen = .ok (result, data, p', memory')) :
    result = 0 ∧ p' = { p with inPos := p.inPos + dataLen } ∧
      mmapStatusOutSet p memory status = .ok memory' ∧
      ∃ ptr bytes, readPtr p = .ok ptr ∧ load p.space memory ptr dataLen.toNat = some bytes ∧
        replaceFirst buffer bytes = some data := by
  simp only [copyIn, bind_eq_ok, accessed_eq_ok] at hrun
  rcases hrun with ⟨ptr, hptr, bytes, hload, data', hreplace, memory₁, hstatus, hresult⟩
  cases hresult
  exact ⟨rfl, rfl, hstatus, ptr, bytes, hptr, hload, hreplace⟩

/-- A read that is not refused is `copyIn` at the position it seeks. -/
theorem readFrom_cases {inMaxSize : Int} (hlen : 0 ≤ t.dataLen) :
    (inMaxSize < p.inPos + t.dataLen ∧ ∃ result, result < 0 ∧
      readFrom p memory inMaxSize t.status t.data t.dataLen = .ok (result, t.data, p, memory)) ∨
    (p.inPos + t.dataLen ≤ inMaxSize ∧
      readFrom p memory inMaxSize t.status t.data t.dataLen =
        copyIn p memory t.status t.data t.dataLen) := by
  unfold readFrom
  by_cases hpast : p.inPos > inMaxSize
  · exact .inl ⟨by omega, -4, by decide, if_pos hpast⟩
  · rw [if_neg hpast]
    by_cases hlong : p.inPos + t.dataLen > inMaxSize
    · exact .inl ⟨hlong, -5, by decide, if_pos hlong⟩
    · exact .inr ⟨Int.not_lt.1 hlong, if_neg hlong⟩

/-- Past the first check, and if an explicit position is accepted, a read goes on from the position
it seeks. -/
theorem mmapInRead_seeks {inSize : Int} (hlen : 0 ≤ t.dataLen) (hsize : p.inSize = some inSize) :
    mmapInRead p memory t.status t.pos t.data t.dataLen =
      if t.pos > append ∧ t.pos > inSize - statusLen - 1 then .ok (-3, t.data, p, memory)
      else readFrom { p with inPos := seek t.pos p.inPos } memory (inSize - statusLen) t.status
        t.data t.dataLen := by
  have hknown : known p.inSize = .ok inSize := known_eq_ok.2 hsize
  unfold mmapInRead
  rw [if_neg (Int.not_lt.2 hlen), hknown]
  by_cases hseek : t.pos > append
  · have hexplicit : seek t.pos p.inPos = t.pos := if_pos hseek
    by_cases hpast : t.pos > inSize - statusLen - 1
    · rw [if_pos ⟨hseek, hpast⟩]
      simp only [bind_ok, pure_eq_ok, if_pos hseek, if_pos hpast]
    · rw [if_neg fun h => hpast h.2, hexplicit]
      simp only [bind_ok, if_pos hseek, if_neg hpast]
  · have hrunning : seek t.pos p.inPos = p.inPos := if_neg hseek
    rw [if_neg fun h => hseek h.1, hrunning]
    simp only [bind_ok, if_neg hseek]

theorem mmapInRead_cases :
    (¬ Passes p t.pos t.dataLen ∧ ∀ result data p' memory',
      mmapInRead p memory t.status t.pos t.data t.dataLen = .ok (result, data, p', memory') →
      result < 0 ∧ data = t.data ∧ memory' = memory ∧
        (p' = p ∨ p' = { p with inPos := seek t.pos p.inPos })) ∨
    (Passes p t.pos t.dataLen ∧
      mmapInRead p memory t.status t.pos t.data t.dataLen =
        copyIn { p with inPos := seek t.pos p.inPos } memory t.status t.data t.dataLen) := by
  by_cases hnegative : t.dataLen < 0
  · refine .inl ⟨?_, ?_⟩
    · rintro ⟨inSize, -, hlen, -⟩
      exact Int.not_lt.2 hlen hnegative
    · intro result data p' memory' hrun
      rw [mmapInRead, if_pos hnegative] at hrun
      cases hrun
      exact ⟨by decide, rfl, rfl, .inl rfl⟩
  · have hlen : 0 ≤ t.dataLen := Int.not_lt.1 hnegative
    rcases Option.eq_none_or_eq_some p.inSize with hsize | ⟨inSize, hsize⟩
    · refine .inl ⟨by simp [Passes, hsize], ?_⟩
      intro result data p' memory' hrun
      simp [mmapInRead, hnegative, hsize] at hrun
    · have hpasses : Passes p t.pos t.dataLen ↔ 0 ≤ t.dataLen ∧
          (t.pos > append → t.pos ≤ inSize - statusLen - 1) ∧
          seek t.pos p.inPos + t.dataLen ≤ inSize - statusLen := by
        simp only [Passes, hsize, Option.mem_some_iff, exists_eq_left']
      rw [mmapInRead_seeks hlen hsize, hpasses]
      by_cases hpast : t.pos > append ∧ t.pos > inSize - statusLen - 1
      · rw [if_pos hpast]
        refine .inl ⟨fun h => Int.not_lt.2 (h.2.1 hpast.1) hpast.2, ?_⟩
        intro result data p' memory' hrun
        cases hrun
        exact ⟨by decide, rfl, rfl, .inl rfl⟩
      · rw [if_neg hpast]
        rcases @readFrom_cases { p with inPos := seek t.pos p.inPos } memory t (inSize - statusLen)
          hlen with ⟨hlong, _, hresult, hrefused⟩ | ⟨hfits, hcopy⟩
        · rw [hrefused]
          refine .inl ⟨fun h => Int.not_lt.2 h.2.2 hlong, ?_⟩
          intro result data p' memory' hrun
          cases hrun
          exact ⟨hresult, rfl, rfl, .inr rfl⟩
        · exact .inr ⟨⟨hlen, fun hseek => Int.not_lt.1 fun h => hpast ⟨hseek, h⟩, hfits⟩, hcopy⟩

theorem mmapInRead_process (hpos : 0 ≤ p.inPos)
    (hrun : mmapInRead p memory t.status t.pos t.data t.dataLen = .ok (result, data, p', memory')) :
    ∃ inPos, 0 ≤ inPos ∧ p' = { p with inPos := inPos } := by
  have hseek : 0 ≤ seek t.pos p.inPos := seek_nonneg hpos
  rcases @mmapInRead_cases p memory t with ⟨-, hrefused⟩ | ⟨⟨inSize, -, hlen, -⟩, hcopy⟩
  · rcases hrefused result data p' memory' hrun with ⟨-, -, -, rfl | rfl⟩
    · exact ⟨p'.inPos, hpos, rfl⟩
    · exact ⟨seek t.pos p.inPos, hseek, rfl⟩
  · rw [hcopy] at hrun
    rcases copyIn_eq_ok hrun with ⟨-, rfl, -⟩
    exact ⟨seek t.pos p.inPos + t.dataLen, Int.add_nonneg hseek hlen, rfl⟩

/-- What a read returns comes from the addresses it copies from; a read that is refused copies
nothing. -/
theorem mmapInRead_copies
    (hrun : mmapInRead p memory t.status t.pos t.data t.dataLen = .ok (result, data, p', memory')) :
    (result < 0 ∧ copied p t.pos t.dataLen = [] ∧ data = t.data) ∨
    (result = 0 ∧ ∃ bytes, (copied p t.pos t.dataLen).mapM (fun a => (p.space a).map memory) =
        some bytes ∧ data = bytes ++ t.data.drop bytes.length) := by
  rcases @mmapInRead_cases p memory t with ⟨hnot, hrefused⟩ | ⟨hpasses, hcopy⟩
  · rcases hrefused result data p' memory' hrun with ⟨hresult, rfl, -, -⟩
    exact .inl ⟨hresult, if_neg hnot, rfl⟩
  · rw [hcopy] at hrun
    rcases copyIn_eq_ok hrun with ⟨rfl, -, -, ptr, bytes, hptr, hload, hreplace⟩
    refine .inr ⟨rfl, bytes, ?_, replaceFirst_eq_some hreplace⟩
    rw [copied, if_pos hpasses, hptr, ← hload, load_eq_mapM]

end Reading

end Mmap
end SharedMemory
end LuajitTcpServer
