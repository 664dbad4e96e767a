import LuajitTcpServer.SharedMemory.Accesses
import LuajitTcpServer.SharedMemory.Opening

/-!
# Session — the module over any sequence of its calls

A `Module` is the state of `lib_shared_memory.lua` in one process: the variables of
`sharedMemoryOpen` and those of the `mmap` functions.  `Reachable` are the states after any
sequence of `mmapOutCreate`, `mmapInConnect`, `mmapAddressSet`, `mmapOutWrite` and `mmapInRead`,
with any arguments and any answers of the kernel.

* The bytes of the segments are no part of the state: other processes may change them at any time.
* A call that does not return ends the run.
-/

namespace LuajitTcpServer
namespace SharedMemory
namespace Session

open ByteMemory Mmap

/-! ## State -/

/-- What the process sees before it opens a segment.  Page 0 is never mapped. -/
structure Surroundings where
  space : Space Cell
  null_page : NullPage space

structure Module (b : Backend) where
  shm : b.Shm
  process : Process

def start (b : Backend) (around : Surroundings) : Module b := ⟨b.start, Mmap.start around.space⟩

namespace Module

variable {b : Backend}

def outCreate (m : Module b) (filename : String) (bufferSize : Int) (kernel : b.Kernel)
    (object : String) : Option (Module b) :=
  (b.openSegment m.shm m.process.space filename bufferSize true kernel object).map
    fun (opened, shm) => ⟨shm, (mmapOutCreate m.process bufferSize opened).2⟩

def inConnect (m : Module b) (filename : String) (bufferSize : Int) (kernel : b.Kernel)
    (object : String) : Option (Module b) :=
  (b.openSegment m.shm m.process.space filename bufferSize false kernel object).map
    fun (opened, shm) => ⟨shm, (mmapInConnect m.process bufferSize opened).2⟩

def addressSet (m : Module b) : Module b := { m with process := mmapAddressSet m.process }

end Module

/-- The states of the module.  The flag says that `mmapAddressSet` has been called since the last
create or connect, as reads and writes need it. -/
inductive Reachable {b : Backend} (around : Surroundings) : Bool → Module b → Prop
  | start : Reachable around true (start b around)
  | outCreate {set : Bool} {m m' : Module b} (filename : String) (bufferSize : Int)
      (kernel : b.Kernel) (object : String) : Reachable around set m →
      m.outCreate filename bufferSize kernel object = some m' → Reachable around false m'
  | inConnect {set : Bool} {m m' : Module b} (filename : String) (bufferSize : Int)
      (kernel : b.Kernel) (object : String) : Reachable around set m →
      m.inConnect filename bufferSize kernel object = some m' → Reachable around false m'
  | addressSet {set : Bool} {m : Module b} :
      Reachable around set m → Reachable around true m.addressSet
  | write {m : Module b} {memory memory' : Memory Cell} {t : Transfer} {result : Int}
      {p : Process} : Reachable around true m →
      mmapOutWrite m.process memory t.status t.pos t.data t.dataLen = .ok (result, p, memory') →
      Reachable around true { m with process := p }
  | read {m : Module b} {memory memory' : Memory Cell} {t : Transfer} {result : Int}
      {data : List UInt8} {p : Process} : Reachable around true m →
      mmapInRead m.process memory t.status t.pos t.data t.dataLen =
        .ok (result, data, p, memory') →
      Reachable around true { m with process := p }

/-! ## Invariant -/

section Invariant

variable {b : Backend} {around : Surroundings} {set : Bool} {m m' : Module b} {filename : String}
  {bufferSize : Int} {kernel : b.Kernel} {object : String}

/-- The out segment is mapped where `outAddress_c` says, and the kernel knows. -/
def OutKept (m : Module b) : Prop :=
  ∀ addr size, m.process.outAddress = some addr → m.process.outSize = some size → 0 < size →
    ∃ length segment, size ≤ length ∧ ⟨addr, length⟩ ∈ b.ranges m.shm ∧
      Maps m.process.space addr (Cell.mk segment) length

/-- What holds after every call.  The pointers are right once `mmapAddressSet` has been called. -/
structure Sound (set : Bool) (m : Module b) : Prop where
  null_page : NullPage m.process.space
  outPos_nonneg : 0 ≤ m.process.outPos
  inPos_nonneg : 0 ≤ m.process.inPos
  maxSize_eq : m.process.outMaxSize = m.process.outSize.map (· - statusLen)
  created : m.process.outAddress ≠ none → m.process.outSize ≠ none
  connected : ∀ size, m.process.inSize = some size → 0 < size → m.process.inAddress ≠ none
  outKept : OutKept m
  outPtrs : set = true → m.process.outSize ≠ none →
    m.process.outPtrStatus = some (getOffsetPointer m.process.outAddress 0) ∧
      m.process.outPtrData = some (getOffsetPointer m.process.outAddress statusLen)
  inPtr : set = true → m.process.inSize ≠ none →
    m.process.inPtrData = some (getOffsetPointer m.process.inAddress statusLen)

theorem sound_start (around : Surroundings) : Sound true (start b around) where
  null_page := around.null_page
  outPos_nonneg := Int.le_refl 0
  inPos_nonneg := Int.le_refl 0
  maxSize_eq := rfl
  created := fun h => absurd rfl h
  connected := by
    intro size hsize
    cases hsize
  outKept := by
    intro addr size haddr
    cases haddr
  outPtrs := fun _ h => absurd rfl h
  inPtr := fun _ h => absurd rfl h

theorem outCreate_eq_some (hnull : NullPage m.process.space)
    (hcall : m.outCreate filename bufferSize kernel object = some m') :
    ∃ opened, Outcome (b.ranges m.shm) m.process.space bufferSize true object opened
        (b.ranges m'.shm) ∧ m'.process = (mmapOutCreate m.process bufferSize opened).2 := by
  rcases Option.map_eq_some_iff.1 hcall with ⟨⟨opened, shm⟩, hopen, rfl⟩
  exact ⟨opened, b.outcome _ _ _ _ _ _ _ _ _ hnull hopen, rfl⟩

theorem inConnect_eq_some (hnull : NullPage m.process.space)
    (hcall : m.inConnect filename bufferSize kernel object = some m') :
    ∃ opened, Outcome (b.ranges m.shm) m.process.space bufferSize false object opened
        (b.ranges m'.shm) ∧ m'.process = (mmapInConnect m.process bufferSize opened).2 := by
  rcases Option.map_eq_some_iff.1 hcall with ⟨⟨opened, shm⟩, hopen, rfl⟩
  exact ⟨opened, b.outcome _ _ _ _ _ _ _ _ _ hnull hopen, rfl⟩

/-- A created segment is mapped at its address. -/
theorem outKept_outCreate {opened : Opened}
    (houtcome : Outcome (b.ranges m.shm) m.process.space bufferSize true object opened
      (b.ranges m'.shm))
    (hprocess : m'.process = (mmapOutCreate m.process bufferSize opened).2) : OutKept m' := by
  intro addr size haddr hsize hpos
  rw [hprocess] at haddr hsize ⊢
  cases hsize
  rcases houtcome with ⟨r, hopens⟩ | ⟨-, hnone, -⟩ | ⟨hcreate, -, -⟩
  · cases hopens.address_eq.symm.trans haddr
    refine ⟨r.length, object, hopens.holds rfl hpos, ?_, ?_⟩
    · rw [hopens.ranges_eq]
      exact List.mem_append_right _ (List.mem_singleton_self _)
    · have hspace : (mmapOutCreate m.process bufferSize opened).2.space =
          mapAt r.addr object r.length m.process.space := hopens.space_eq
      rw [hspace]
      exact maps_mapAt r.addr object r.length m.process.space
  · cases hnone.symm.trans haddr
  · cases hcreate

/-- A connect leaves the out segment where it is. -/
theorem outKept_inConnect (h : OutKept m) {opened : Opened}
    (houtcome : Outcome (b.ranges m.shm) m.process.space bufferSize false object opened
      (b.ranges m'.shm))
    (hprocess : m'.process = (mmapInConnect m.process bufferSize opened).2) : OutKept m' := by
  intro addr size haddr hsize hpos
  rw [hprocess] at haddr hsize ⊢
  rcases h addr size haddr hsize hpos with ⟨length, segment, hholds, hlive, hmaps⟩
  refine ⟨length, segment, hholds, ?_⟩
  rcases houtcome with ⟨r, hopens⟩ | ⟨hcreate, -, -⟩ | ⟨-, hsame, hspace⟩
  · constructor
    · rw [hopens.ranges_eq]
      exact List.mem_append_left _ hlive
    · have hspace : (mmapInConnect m.process bufferSize opened).2.space =
          mapAt r.addr object r.length m.process.space := hopens.space_eq
      rw [hspace]
      exact maps_mapAt_of_apart hmaps (hopens.apart _ hlive)
  · cases hcreate
  · constructor
    · rw [hsame]
      exact hlive
    · have hspace' : (mmapInConnect m.process bufferSize opened).2.space = m.process.space := hspace
      rw [hspace']
      exact hmaps

theorem sound_outCreate (h : Sound set m)
    (hcall : m.outCreate filename bufferSize kernel object = some m') : Sound false m' := by
  rcases outCreate_eq_some h.null_page hcall with ⟨opened, houtcome, hprocess⟩
  have hkept := outKept_outCreate houtcome hprocess
  have hnull := houtcome.nullPage h.null_page
  rcases m' with ⟨shm, p⟩
  cases hprocess
  exact
    { null_page := hnull
      outPos_nonneg := h.outPos_nonneg
      inPos_nonneg := h.inPos_nonneg
      maxSize_eq := rfl
      created := fun _ => Option.some_ne_none _
      connected := h.connected
      outKept := hkept
      outPtrs := fun hset => absurd hset Bool.false_ne_true
      inPtr := fun hset => absurd hset Bool.false_ne_true }

theorem sound_inConnect (h : Sound set m)
    (hcall : m.inConnect filename bufferSize kernel object = some m') : Sound false m' := by
  rcases inConnect_eq_some h.null_page hcall with ⟨opened, houtcome, hprocess⟩
  have hkept := outKept_inConnect h.outKept houtcome hprocess
  have hnull := houtcome.nullPage h.null_page
  rcases m' with ⟨shm, p⟩
  cases hprocess
  have hconnected : ∀ size, (mmapInConnect m.process bufferSize opened).2.inSize = some size →
      0 < size → opened.address ≠ none := by
    intro size hsize hpos hnone
    -- without an address the open has failed, and the size is 0
    have hzero : (mmapInConnect m.process bufferSize opened).2.inSize = some 0 := by
      simp [mmapInConnect, Opened.failed, hnone]
    cases hsize.symm.trans hzero
    exact Int.lt_irrefl 0 hpos
  exact
    { null_page := hnull
      outPos_nonneg := h.outPos_nonneg
      inPos_nonneg := h.inPos_nonneg
      maxSize_eq := h.maxSize_eq
      created := h.created
      connected := hconnected
      outKept := hkept
      outPtrs := fun hset => absurd hset Bool.false_ne_true
      inPtr := fun hset => absurd hset Bool.false_ne_true }

theorem sound_addressSet (h : Sound set m) : Sound true m.addressSet where
  null_page := h.null_page
  outPos_nonneg := h.outPos_nonneg
  inPos_nonneg := h.inPos_nonneg
  maxSize_eq := h.maxSize_eq
  created := h.created
  connected := h.connected
  outKept := h.outKept
  outPtrs := fun _ _ => ⟨rfl, rfl⟩
  inPtr := fun _ _ => rfl

/-- Reads and writes move the positions only. -/
theorem sound_positions {outPos inPos : Int} (h : Sound set m) (hout : 0 ≤ outPos)
    (hin : 0 ≤ inPos) :
    Sound set { m with process := { m.process with outPos := outPos, inPos := inPos } } where
  null_page := h.null_page
  outPos_nonneg := hout
  inPos_nonneg := hin
  maxSize_eq := h.maxSize_eq
  created := h.created
  connected := h.connected
  outKept := h.outKept
  outPtrs := h.outPtrs
  inPtr := h.inPtr

theorem Reachable.sound (h : Reachable around set m) : Sound set m := by
  induction h with
  | start =>
      exact sound_start around
  | outCreate filename bufferSize kernel object _ hcall ih =>
      exact sound_outCreate ih hcall
  | inConnect filename bufferSize kernel object _ hcall ih =>
      exact sound_inConnect ih hcall
  | addressSet _ ih =>
      exact sound_addressSet ih
  | write _ hrun ih =>
      rcases mmapOutWrite_process ih.outPos_nonneg hrun with ⟨outPos, hpos, rfl⟩
      exact sound_positions ih hpos ih.inPos_nonneg
  | read _ hrun ih =>
      rcases mmapInRead_process ih.inPos_nonneg hrun with ⟨inPos, hpos, rfl⟩
      exact sound_positions ih ih.outPos_nonneg hpos

/-- After `mmapAddressSet`, the out segment can be written to. -/
theorem Sound.outMapped (h : Sound true m) {addr size : Int} (haddr : m.process.outAddress = some addr)
    (hsize : m.process.outSize = some size) (hpos : 0 < size) :
    ∃ segment, OutMapped m.process addr segment size := by
  rcases h.outKept addr size haddr hsize hpos with ⟨length, segment, hholds, -, hmaps⟩
  rcases h.outPtrs rfl (by simp [hsize]) with ⟨hstatus, hdata⟩
  refine ⟨segment, haddr, ?_, ?_, ?_, ?_⟩
  · simpa [haddr, getOffsetPointer] using hstatus
  · simpa [haddr, getOffsetPointer] using hdata
  · simpa [hsize] using h.maxSize_eq
  · exact fun i hi hlt => hmaps i hi (Int.lt_of_lt_of_le hlt hholds)

end Invariant

end Session
end SharedMemory
end LuajitTcpServer
