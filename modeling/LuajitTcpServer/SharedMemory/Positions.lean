import LuajitTcpServer.Lib.CallSeq
import LuajitTcpServer.SharedMemory.Bounds

/-!
# Positions — the running positions over any sequence of calls

`inPos` and `outPos` are variables of the module.  An open does not touch them, and `mmapInRead` sets
`inPos` before its last check.

* A failed read leaves no trace unless it is one that begins inside its segment and ends past it
  (`failed_read_iff`).
* The positions are inside their segments as long as each open finds its position there; the first
  write after a create goes on from where the last one ended (`running_positions`).
-/

namespace LuajitTcpServer
namespace SharedMemory
namespace Session

open ByteMemory CallSeq Mmap

/-! ## Calls -/

inductive Call (b : Backend)
  | outCreate (filename : String) (bufferSize : Int) (kernel : b.Kernel) (object : String)
  | inConnect (filename : String) (bufferSize : Int) (kernel : b.Kernel) (object : String)
  | addressSet
  | write (memory : Memory Cell) (t : Transfer)
  | read (memory : Memory Cell) (t : Transfer)

namespace Call

variable {b : Backend}

def IsWrite : Call b → Prop
  | write _ _ => True
  | _ => False

def IsRead : Call b → Prop
  | read _ _ => True
  | _ => False

/-- The address that an open has left, for a call that is one. -/
def opened (p : Process) : Call b → Option Opened
  | outCreate _ _ _ _ => some ⟨p.outAddress, p.space⟩
  | inConnect _ _ _ _ => some ⟨p.inAddress, p.space⟩
  | _ => none

end Call

/-- A call that does not return ends the sequence. -/
def Module.call {b : Backend} (m : Module b) : Call b → Except Unit (Module b)
  | .outCreate filename bufferSize kernel object =>
      (m.outCreate filename bufferSize kernel object).elim (.error ()) .ok
  | .inConnect filename bufferSize kernel object =>
      (m.inConnect filename bufferSize kernel object).elim (.error ()) .ok
  | .addressSet => .ok m.addressSet
  | .write memory t =>
      match mmapOutWrite m.process memory t.status t.pos t.data t.dataLen with
      | .ok (_, p, _) => .ok { m with process := p }
      | .error _ => .error ()
  | .read memory t =>
      match mmapInRead m.process memory t.status t.pos t.data t.dataLen with
      | .ok (_, _, p, _) => .ok { m with process := p }
      | .error _ => .error ()

/-- So does an open that has failed. -/
def Module.successful {b : Backend} (m : Module b) (c : Call b) : Except Unit (Module b) :=
  match m.call c with
  | .ok m' => if (c.opened m'.process).any Opened.failed then .error () else .ok m'
  | .error e => .error e

section Steps

variable {b : Backend} {m m' : Module b} {c : Call b}

/-- What a call does to the process. -/
inductive Does (p : Process) : Call b → Process → Prop
  | outCreate (filename : String) (bufferSize : Int) (kernel : b.Kernel) (object : String)
      (opened : Opened) :
      Does p (.outCreate filename bufferSize kernel object) (mmapOutCreate p bufferSize opened).2
  | inConnect (filename : String) (bufferSize : Int) (kernel : b.Kernel) (object : String)
      (opened : Opened) :
      Does p (.inConnect filename bufferSize kernel object) (mmapInConnect p bufferSize opened).2
  | addressSet : Does p .addressSet (mmapAddressSet p)
  | write {memory memory' : Memory Cell} {t : Transfer} {result : Int} {p' : Process} :
      mmapOutWrite p memory t.status t.pos t.data t.dataLen = .ok (result, p', memory') →
      Does p (.write memory t) p'
  | read {memory memory' : Memory Cell} {t : Transfer} {result : Int} {data : List UInt8}
      {p' : Process} :
      mmapInRead p memory t.status t.pos t.data t.dataLen = .ok (result, data, p', memory') →
      Does p (.read memory t) p'

theorem elim_eq_ok {α : Type} {x : Option α} {a : α} :
    x.elim (.error ()) .ok = (.ok a : Except Unit α) ↔ x = some a := by
  cases x <;> simp

theorem call_does (h : m.call c = .ok m') : Does m.process c m'.process := by
  cases c with
  | outCreate filename bufferSize kernel object =>
      rcases Option.map_eq_some_iff.1 (elim_eq_ok.1 h) with ⟨⟨opened, shm⟩, -, rfl⟩
      exact .outCreate filename bufferSize kernel object opened
  | inConnect filename bufferSize kernel object =>
      rcases Option.map_eq_some_iff.1 (elim_eq_ok.1 h) with ⟨⟨opened, shm⟩, -, rfl⟩
      exact .inConnect filename bufferSize kernel object opened
  | addressSet =>
      cases h
      exact .addressSet
  | write memory t =>
      simp only [Module.call] at h
      split at h
      · rename_i hrun
        cases h
        exact .write hrun
      · cases h
  | read memory t =>
      simp only [Module.call] at h
      split at h
      · rename_i hrun
        cases h
        exact .read hrun
      · cases h

theorem successful_eq_ok (h : m.successful c = .ok m') :
    m.call c = .ok m' ∧ (c.opened m'.process).any Opened.failed = false := by
  unfold Module.successful at h
  cases hcall : m.call c with
  | error e =>
      rw [hcall] at h
      cases h
  | ok m₁ =>
      rw [hcall] at h
      cases hfailed : (c.opened m₁.process).any Opened.failed with
      | true =>
          simp [hfailed] at h
      | false =>
          simp only [hfailed, Bool.false_eq_true, if_false] at h
          cases h
          exact ⟨rfl, hfailed⟩

/-! ## Where the positions go -/

variable {p p' : Process} {memory memory' : Memory Cell} {t : Transfer} {result : Int}
  {data : List UInt8}

/-- The outcomes of a write: it is refused, or it leaves the position after its bytes. -/
theorem mmapOutWrite_moves
    (hrun : mmapOutWrite p memory t.status t.pos t.data t.dataLen = .ok (result, p', memory')) :
    (result < 0 ∧ p' = p ∧ memory' = memory) ∨
    ∃ outMaxSize len, p.outMaxSize = some outMaxSize ∧ outLen t.data t.dataLen = .ok len ∧
      1 ≤ len ∧ seek t.pos p.outPos + len ≤ outMaxSize ∧
      copyOut { p with outPos := seek t.pos p.outPos } memory t.status t.data len =
        .ok (result, p', memory') ∧
      p' = { p with outPos := seek t.pos p.outPos + len } := by
  have hbegun := hrun
  simp only [mmapOutWrite, bind_eq_ok] at hbegun
  rcases hbegun with ⟨len, hlen, hbegun⟩
  rcases Option.eq_none_or_eq_some p.outMaxSize with hmax | ⟨outMaxSize, hmax⟩
  · -- only the first check comes before the use of `outMaxSize`
    by_cases hempty : len < 1
    · rw [if_pos hempty] at hbegun
      cases hbegun
      exact .inl ⟨by decide, rfl, rfl⟩
    · simp [hempty, hmax] at hbegun
  · rcases @mmapOutWrite_cases p memory t len _ hlen hmax with
      ⟨_, hresult, hrefused⟩ | ⟨hone, hfits, hcopy⟩
    · rw [hrefused] at hrun
      cases hrun
      exact .inl ⟨hresult, rfl, rfl⟩
    · rw [hcopy] at hrun
      exact .inr ⟨outMaxSize, len, hmax, hlen, hone, hfits, hrun, (copyOut_process hrun).2⟩

/-- The read is to begin inside the in segment, and to end past it. -/
def PastEnd (p : Process) (t : Transfer) : Prop :=
  ∃ inSize ∈ p.inSize, t.pos > append ∧ t.pos ≤ inSize - statusLen - 1 ∧
    inSize - statusLen < t.pos + t.dataLen

instance (p : Process) (t : Transfer) : Decidable (PastEnd p t) :=
  inferInstanceAs (Decidable (∃ inSize ∈ p.inSize, _))

/-- Such a read fails after `inPos = pos`. -/
theorem mmapInRead_pastEnd (h : PastEnd p t) : ∃ result, result < 0 ∧
    mmapInRead p memory t.status t.pos t.data t.dataLen =
      .ok (result, t.data, { p with inPos := t.pos }, memory) := by
  rcases h with ⟨inSize, hsize, hseek, hinside, hpast⟩
  have hlen : 0 ≤ t.dataLen := by omega
  have hexplicit : seek t.pos p.inPos = t.pos := if_pos hseek
  rw [mmapInRead_seeks hlen hsize, if_neg fun h => Int.not_lt.2 hinside h.2, hexplicit]
  rcases @readFrom_cases { p with inPos := t.pos } memory t (inSize - statusLen) hlen with
    ⟨-, hrefused⟩ | ⟨hfits, -⟩
  · exact hrefused
  · exact absurd hpast (Int.not_lt.2 hfits)

theorem not_pastEnd_of_passes (h : Passes p t.pos t.dataLen) : ¬ PastEnd p t := by
  rintro ⟨inSize, hsize, hseek, -, hpast⟩
  rcases h with ⟨size, hsize', -, -, hfits⟩
  cases hsize.symm.trans hsize'
  have hexplicit : seek t.pos p.inPos = t.pos := if_pos hseek
  rw [hexplicit] at hfits
  exact Int.not_lt.2 hfits hpast

/-- Any other read that is refused leaves the position. -/
theorem mmapInRead_refused (hnot : ¬ Passes p t.pos t.dataLen) (hpast : ¬ PastEnd p t)
    (hrun : mmapInRead p memory t.status t.pos t.data t.dataLen = .ok (result, data, p', memory')) :
    result < 0 ∧ data = t.data ∧ memory' = memory ∧ p' = p := by
  by_cases hnegative : t.dataLen < 0
  · rw [mmapInRead, if_pos hnegative] at hrun
    cases hrun
    exact ⟨by decide, rfl, rfl, rfl⟩
  · have hlen : 0 ≤ t.dataLen := Int.not_lt.1 hnegative
    rcases Option.eq_none_or_eq_some p.inSize with hsize | ⟨inSize, hsize⟩
    · simp [mmapInRead, hnegative, hsize] at hrun
    · rw [mmapInRead_seeks hlen hsize] at hrun
      by_cases hbeyond : t.pos > append ∧ t.pos > inSize - statusLen - 1
      · rw [if_pos hbeyond] at hrun
        cases hrun
        exact ⟨by decide, rfl, rfl, rfl⟩
      · have hinside : t.pos > append → t.pos ≤ inSize - statusLen - 1 :=
          fun hseek => Int.not_lt.1 fun h => hbeyond ⟨hseek, h⟩
        rw [if_neg hbeyond] at hrun
        rcases @readFrom_cases { p with inPos := seek t.pos p.inPos } memory t (inSize - statusLen)
          hlen with ⟨hlong, _, hresult, hrefused⟩ | ⟨hfits, -⟩
        · -- an explicit position would have been past the end
          have hrunning : ¬ t.pos > append := by
            intro hseek
            have hexplicit : seek t.pos p.inPos = t.pos := if_pos hseek
            rw [hexplicit] at hlong
            exact hpast ⟨inSize, hsize, hseek, hinside hseek, hlong⟩
          have hstays : seek t.pos p.inPos = p.inPos := if_neg hrunning
          rw [hrefused, hstays] at hrun
          cases hrun
          exact ⟨hresult, rfl, rfl, rfl⟩
        · exact absurd ⟨inSize, hsize, hlen, hinside, hfits⟩ hnot

/-- The outcomes of a read: it is refused, and moves the position only if it was to end past the
segment; or it leaves the position after its bytes. -/
theorem mmapInRead_moves
    (hrun : mmapInRead p memory t.status t.pos t.data t.dataLen = .ok (result, data, p', memory')) :
    (result < 0 ∧ data = t.data ∧ memory' = memory ∧
      p' = if PastEnd p t then { p with inPos := t.pos } else p) ∨
    (result = 0 ∧ Passes p t.pos t.dataLen ∧
      copyIn { p with inPos := seek t.pos p.inPos } memory t.status t.data t.dataLen =
        .ok (result, data, p', memory') ∧
      p' = { p with inPos := seek t.pos p.inPos + t.dataLen }) := by
  by_cases hpast : PastEnd p t
  · rcases @mmapInRead_pastEnd p memory t hpast with ⟨_, hresult, hfails⟩
    rw [hfails] at hrun
    cases hrun
    exact .inl ⟨hresult, rfl, rfl, (if_pos hpast).symm⟩
  · rcases @mmapInRead_cases p memory t with ⟨hnot, -⟩ | ⟨hpasses, hcopy⟩
    · rcases mmapInRead_refused hnot hpast hrun with ⟨hresult, hdata, hmemory, hprocess⟩
      exact .inl ⟨hresult, hdata, hmemory, hprocess.trans (if_neg hpast).symm⟩
    · rw [hcopy] at hrun
      rcases copyIn_eq_ok hrun with ⟨hresult, hprocess, -⟩
      exact .inr ⟨hresult, hpasses, hrun, hprocess⟩

end Steps

/-! ## Failed reads -/

/-- A read that fails leaves its buffer, the out status and the position as they are. -/
def NoTrace (p : Process) (memory : Memory Cell) (t : Transfer) : Prop :=
  ∀ result data p' memory',
    mmapInRead p memory t.status t.pos t.data t.dataLen = .ok (result, data, p', memory') →
    result < 0 → data = t.data ∧ mmapOutStatus p' memory' = mmapOutStatus p memory ∧
      p'.inPos = p.inPos

/-- A read past the end, from another position than the running one. -/
def Overshoots (p : Process) (t : Transfer) : Prop := PastEnd p t ∧ t.pos ≠ p.inPos

instance (p : Process) (t : Transfer) : Decidable (Overshoots p t) :=
  inferInstanceAs (Decidable (_ ∧ _))

/-- The module, and where the last successful read has ended. -/
structure Reader (b : Backend) where
  module : Module b
  readEnd : Int

namespace Reader

variable {b : Backend}

/-- Where the last successful read has ended, after one more call. -/
def endAfter (p : Process) (readEnd : Int) : Call b → Int
  | .read memory t =>
      match mmapInRead p memory t.status t.pos t.data t.dataLen with
      | .ok (result, _, _, _) => if result = 0 then seek t.pos p.inPos + t.dataLen else readEnd
      | .error _ => readEnd
  | _ => readEnd

def call (r : Reader b) (c : Call b) : Except Unit (Reader b) :=
  (r.module.call c).map fun m => ⟨m, endAfter r.module.process r.readEnd c⟩

def start (b : Backend) (around : Surroundings) : Reader b := ⟨Session.start b around, 0⟩

/-- The next read with `pos = -1` goes on where the last successful one has ended. -/
def Continues (r : Reader b) : Prop := r.module.process.inPos = r.readEnd

end Reader

/-- The reads that do not overshoot. -/
def Call.StaysBefore {b : Backend} (p : Process) : Call b → Prop
  | .read _ t => ¬ Overshoots p t
  | _ => True

section FailedReads

variable {b : Backend} {p : Process} {memory : Memory Cell} {t : Transfer} {r r' : Reader b}
  {c : Call b}

theorem noTrace_iff : NoTrace p memory t ↔ ¬ Overshoots p t := by
  constructor
  · rintro h ⟨hpast, hother⟩
    rcases @mmapInRead_pastEnd p memory t hpast with ⟨result, hresult, hfails⟩
    exact hother (h result t.data _ memory hfails hresult).2.2
  · intro hnot result data p' memory' hrun hresult
    rcases mmapInRead_moves hrun with ⟨-, hdata, rfl, rfl⟩ | ⟨rfl, -⟩
    · by_cases hpast : PastEnd p t
      · rw [if_pos hpast]
        exact ⟨hdata, rfl, Decidable.not_not.1 fun hother => hnot ⟨hpast, hother⟩⟩
      · rw [if_neg hpast]
        exact ⟨hdata, rfl, rfl⟩
    · exact absurd hresult (Int.lt_irrefl 0)

/-- One call keeps the position where the last successful read has ended, exactly if it is not a
read that overshoots. -/
theorem inPos_eq_endAfter_iff {p' : Process} (h : Does p c p') :
    p'.inPos = Reader.endAfter p p.inPos c ↔ c.StaysBefore p := by
  cases h with
  | outCreate filename bufferSize kernel object opened =>
      exact iff_of_true rfl trivial
  | inConnect filename bufferSize kernel object opened =>
      exact iff_of_true rfl trivial
  | addressSet =>
      exact iff_of_true rfl trivial
  | write hrun =>
      rcases mmapOutWrite_moves hrun with ⟨-, rfl, -⟩ | ⟨_, _, -, -, -, -, -, rfl⟩
      · exact iff_of_true rfl trivial
      · exact iff_of_true rfl trivial
  | @read memory memory' t result data p' hrun =>
      have hend : Reader.endAfter p p.inPos (.read memory t : Call b) =
          if result = 0 then seek t.pos p.inPos + t.dataLen else p.inPos := by
        simp only [Reader.endAfter, hrun]
      rw [hend]
      rcases mmapInRead_moves hrun with ⟨hresult, -, -, rfl⟩ | ⟨rfl, hpasses, -, rfl⟩
      · rw [if_neg (Int.ne_of_lt hresult)]
        by_cases hpast : PastEnd p t
        · rw [if_pos hpast]
          exact ⟨fun hsame hover => hover.2 hsame, fun hnot =>
            Decidable.not_not.1 fun hother => hnot ⟨hpast, hother⟩⟩
        · rw [if_neg hpast]
          exact iff_of_true rfl fun hover => hpast hover.1
      · exact iff_of_true rfl fun hover => not_pastEnd_of_passes hpasses hover.1

theorem reader_call_eq_ok (h : r.call c = .ok r') :
    Does r.module.process c r'.module.process ∧
      r'.readEnd = Reader.endAfter r.module.process r.readEnd c := by
  unfold Reader.call at h
  cases hcall : r.module.call c with
  | error e =>
      rw [hcall] at h
      cases h
  | ok m =>
      rw [hcall] at h
      cases h
      exact ⟨call_does hcall, rfl⟩

theorem continues_call_iff (hr : r.Continues) (h : r.call c = .ok r') :
    r'.Continues ↔ c.StaysBefore r.module.process := by
  rcases reader_call_eq_ok h with ⟨hdoes, hend⟩
  rw [Reader.Continues, hend, ← hr]
  exact inPos_eq_endAfter_iff hdoes

/-- In every state of the module, the failed reads that leave a trace are those that overshoot; a
failed write never does.  After every call of a sequence, the next read with `pos = -1` continues the
last successful one, if and only if no read of the sequence overshoots. -/
theorem failed_read_iff (b : Backend) (around : Surroundings) (cs : List (Call b)) :
    (∀ m, runCalls Module.call (Session.start b around) cs = .ok m → ∀ memory t,
      (NoTrace m.process memory t ↔ ¬ Overshoots m.process t) ∧
      ∀ result p' memory',
        mmapOutWrite m.process memory t.status t.pos t.data t.dataLen = .ok (result, p', memory') →
        result < 0 → p' = m.process ∧ memory' = memory) ∧
    (EachStep Reader.call (fun _ _ r' => r'.Continues) (Reader.start b around) cs ↔
      EachStep Reader.call (fun r c _ => c.StaysBefore r.module.process) (Reader.start b around)
        cs) := by
  constructor
  · intro m _ memory t
    refine ⟨noTrace_iff, fun result p' memory' hrun hresult => ?_⟩
    rcases mmapOutWrite_moves hrun with ⟨-, hprocess, hmemory⟩ | ⟨_, _, -, -, -, -, hcopy, -⟩
    · exact ⟨hprocess, hmemory⟩
    · rcases copyOut_process hcopy with ⟨rfl, -⟩
      exact absurd hresult (Int.lt_irrefl 0)
  · refine eachStep_congr Reader.Continues (fun r c r' _ _ h => h) ?_ rfl
    intro r c r' hr hcall
    exact continues_call_iff hr hcall

/-- Two segments of 16 bytes. -/
def connecting : List (Call posix) :=
  [.outCreate "out" 16 ⟨3, 0, 65536⟩ "out", .addressSet,
    .inConnect "in" 16 ⟨3, 0, 131072⟩ "in", .addressSet]

/-- 13 bytes are to be read from position 3, and there are 12. -/
theorem refused_read_moves :
    ¬ ∀ (b : Backend) (around : Surroundings) (cs : List (Call b)) (m : Module b),
      runCalls Module.call (Session.start b around) cs = .ok m →
      ∀ memory t, NoTrace m.process memory t := by
  intro h
  have hrun : ∃ m, runCalls Module.call (Session.start posix bare) connecting = .ok m ∧
      Overshoots m.process ⟨65, 3, List.replicate 13 0, 13⟩ := ⟨_, rfl, by decide +kernel⟩
  rcases hrun with ⟨m, hm, hover⟩
  exact noTrace_iff.1 (h posix bare connecting m hm (fun _ => 0) _) hover

end FailedReads

/-! ## Positions and segments -/

/-- The positions are not past the ends of the segments. -/
structure Bounded (p : Process) : Prop where
  out : ∀ size ∈ p.outSize, p.outPos ≤ size - statusLen
  inside : ∀ size ∈ p.inSize, p.inPos ≤ size - statusLen

/-- An open finds its running position inside the new segment. -/
def Call.Fits {b : Backend} (p : Process) : Call b → Prop
  | .outCreate _ bufferSize _ _ => p.outPos ≤ bufferSize - statusLen
  | .inConnect _ bufferSize _ _ => p.inPos ≤ bufferSize - statusLen
  | _ => True

/-- The bytes of the write, if it is not refused, begin at data offset `start`. -/
def WritesFrom (p : Process) (memory : Memory Cell) (t : Transfer) (start : Int) : Prop :=
  ∀ result p' memory',
    mmapOutWrite p memory t.status t.pos t.data t.dataLen = .ok (result, p', memory') →
    result < 0 ∨ ∃ len, outLen t.data t.dataLen = .ok len ∧
      copyOut { p with outPos := start } memory t.status t.data len = .ok (result, p', memory')

/-- The bytes of the read, if it is not refused, begin at data offset `start`. -/
def ReadsFrom (p : Process) (memory : Memory Cell) (t : Transfer) (start : Int) : Prop :=
  ∀ result data p' memory',
    mmapInRead p memory t.status t.pos t.data t.dataLen = .ok (result, data, p', memory') →
    result < 0 ∨ copyIn { p with inPos := start } memory t.status t.data t.dataLen =
      .ok (result, data, p', memory')

/-- What the module keeps whatever is called. -/
structure Steady (p : Process) : Prop where
  outPos_nonneg : 0 ≤ p.outPos
  inPos_nonneg : 0 ≤ p.inPos
  maxSize_eq : p.outMaxSize = p.outSize.map (· - statusLen)

section Lifetimes

variable {b : Backend} {m m' : Module b} {c : Call b} {cs : List (Call b)} {p p' : Process}
  {memory : Memory Cell} {t : Transfer}

theorem steady_start (space : Space Cell) : Steady (Mmap.start space) :=
  ⟨Int.le_refl 0, Int.le_refl 0, rfl⟩

theorem Steady.does (h : Steady p) (hdoes : Does p c p') : Steady p' := by
  cases hdoes with
  | outCreate filename bufferSize kernel object opened =>
      exact ⟨h.outPos_nonneg, h.inPos_nonneg, rfl⟩
  | inConnect filename bufferSize kernel object opened =>
      exact ⟨h.outPos_nonneg, h.inPos_nonneg, h.maxSize_eq⟩
  | addressSet =>
      exact ⟨h.outPos_nonneg, h.inPos_nonneg, h.maxSize_eq⟩
  | write hrun =>
      rcases mmapOutWrite_process h.outPos_nonneg hrun with ⟨outPos, hpos, rfl⟩
      exact ⟨hpos, h.inPos_nonneg, h.maxSize_eq⟩
  | read hrun =>
      rcases mmapInRead_process h.inPos_nonneg hrun with ⟨inPos, hpos, rfl⟩
      exact ⟨h.outPos_nonneg, hpos, h.maxSize_eq⟩

/-- A write leaves its position inside the segment. -/
theorem Bounded.write (h : Bounded p) (hmax : p.outMaxSize = p.outSize.map (· - statusLen))
    {memory' : Memory Cell} {result : Int}
    (hrun : mmapOutWrite p memory t.status t.pos t.data t.dataLen = .ok (result, p', memory')) :
    Bounded p' := by
  rcases mmapOutWrite_moves hrun with ⟨-, rfl, -⟩ | ⟨outMaxSize, len, hfound, -, -, hfits, -, rfl⟩
  · exact h
  · refine ⟨fun size hsize => ?_, h.inside⟩
    rw [Option.mem_def] at hsize
    rw [hmax, show p.outSize = some size from hsize] at hfound
    cases hfound
    exact hfits

/-- So does a read, also one that is refused. -/
theorem Bounded.read (h : Bounded p) {memory' : Memory Cell} {result : Int} {data : List UInt8}
    (hrun : mmapInRead p memory t.status t.pos t.data t.dataLen = .ok (result, data, p', memory')) :
    Bounded p' := by
  rcases mmapInRead_moves hrun with ⟨-, -, -, rfl⟩ | ⟨-, ⟨inSize, hfound, -, -, hfits⟩, -, rfl⟩
  · by_cases hpast : PastEnd p t
    · rw [if_pos hpast]
      rcases hpast with ⟨inSize, hfound, -, hinside, -⟩
      refine ⟨h.out, fun size hsize => ?_⟩
      cases hfound.symm.trans hsize
      exact Int.le_trans hinside (by omega)
    · rw [if_neg hpast]
      exact h
  · refine ⟨h.out, fun size hsize => ?_⟩
    cases hfound.symm.trans hsize
    exact hfits

/-- One call keeps the positions inside the segments, exactly if an open finds its position inside
the new one. -/
theorem bounded_does_iff (hsteady : Steady p) (h : Bounded p) (hdoes : Does p c p')
    (hopened : (c.opened p').any Opened.failed = false) : Bounded p' ↔ c.Fits p := by
  cases hdoes with
  | outCreate filename bufferSize kernel object opened =>
      constructor
      · exact fun h' => h'.out bufferSize rfl
      · refine fun hfits => ⟨fun size hsize => ?_, h.inside⟩
        cases hsize
        exact hfits
  | inConnect filename bufferSize kernel object opened =>
      have hsize : (mmapInConnect p bufferSize opened).2.inSize = some bufferSize := by
        have hok : opened.failed = false := hopened
        simp [mmapInConnect, hok]
      constructor
      · exact fun h' => h'.inside bufferSize hsize
      · refine fun hfits => ⟨h.out, fun size hsize' => ?_⟩
        cases hsize.symm.trans hsize'
        exact hfits
  | addressSet =>
      exact iff_of_true ⟨h.out, h.inside⟩ trivial
  | write hrun =>
      exact iff_of_true (h.write hsteady.maxSize_eq hrun) trivial
  | read hrun =>
      exact iff_of_true (h.read hrun) trivial

/-- Only a write moves `outPos`. -/
theorem Does.outPos_eq (hdoes : Does p c p') (hc : ¬ c.IsWrite) : p'.outPos = p.outPos := by
  cases hdoes with
  | outCreate filename bufferSize kernel object opened =>
      rfl
  | inConnect filename bufferSize kernel object opened =>
      rfl
  | addressSet =>
      rfl
  | write hrun =>
      exact absurd trivial hc
  | read hrun =>
      rcases mmapInRead_moves hrun with ⟨-, -, -, rfl⟩ | ⟨-, -, -, rfl⟩
      · split <;> rfl
      · rfl

/-- Only a read moves `inPos`. -/
theorem Does.inPos_eq (hdoes : Does p c p') (hc : ¬ c.IsRead) : p'.inPos = p.inPos := by
  cases hdoes with
  | outCreate filename bufferSize kernel object opened =>
      rfl
  | inConnect filename bufferSize kernel object opened =>
      rfl
  | addressSet =>
      rfl
  | write hrun =>
      rcases mmapOutWrite_moves hrun with ⟨-, rfl, -⟩ | ⟨_, _, -, -, -, -, -, rfl⟩
      · rfl
      · rfl
  | read hrun =>
      exact absurd trivial hc

theorem successful_does (h : m.successful c = .ok m') : Does m.process c m'.process :=
  call_does (successful_eq_ok h).1

theorem outPos_eq_of_run (hcs : ∀ c ∈ cs, ¬ c.IsWrite)
    (hrun : runCalls Module.successful m cs = .ok m') : m'.process.outPos = m.process.outPos :=
  runCalls_keeps (fun m => m.process.outPos)
    (fun _ c _ hc hcall => (successful_does hcall).outPos_eq (hcs c hc)) hrun

theorem inPos_eq_of_run (hcs : ∀ c ∈ cs, ¬ c.IsRead)
    (hrun : runCalls Module.successful m cs = .ok m') : m'.process.inPos = m.process.inPos :=
  runCalls_keeps (fun m => m.process.inPos)
    (fun _ c _ hc hcall => (successful_does hcall).inPos_eq (hcs c hc)) hrun

/-- A write with `pos = -1` begins at the running position. -/
theorem writesFrom_outPos (hpos : t.pos = append) : WritesFrom p memory t p.outPos := by
  intro result p' memory' hrun
  have hseek : seek t.pos p.outPos = p.outPos := if_neg (by omega)
  rcases mmapOutWrite_moves hrun with ⟨hresult, -⟩ | ⟨_, len, -, hlen, -, -, hcopy, -⟩
  · exact .inl hresult
  · rw [hseek] at hcopy
    exact .inr ⟨len, hlen, hcopy⟩

theorem readsFrom_inPos (hpos : t.pos = append) : ReadsFrom p memory t p.inPos := by
  intro result data p' memory' hrun
  have hseek : seek t.pos p.inPos = p.inPos := if_neg (by omega)
  rcases mmapInRead_moves hrun with ⟨hresult, -⟩ | ⟨-, -, hcopy, -⟩
  · exact .inl hresult
  · rw [hseek] at hcopy
    exact .inr hcopy

/-- In every sequence whose opens succeed, the positions are never negative.  They are inside their
segments after every call, if and only if each open finds its position inside the new one.  The first
write after a create and the first read after a connect, with `pos = -1`, begin where the position
was before it. -/
theorem running_positions (b : Backend) (around : Surroundings) (cs : List (Call b)) :
    EachStep Module.successful (fun _ _ m' => 0 ≤ m'.process.outPos ∧ 0 ≤ m'.process.inPos)
      (start b around) cs ∧
    (EachStep Module.successful (fun _ _ m' => Bounded m'.process) (start b around) cs ↔
      EachStep Module.successful (fun m c _ => c.Fits m.process) (start b around) cs) ∧
    (∀ m₀ filename bufferSize kernel object m₁ between m₂ memory t,
      runCalls Module.successful (start b around) cs = .ok m₀ →
      m₀.successful (.outCreate filename bufferSize kernel object) = .ok m₁ →
      runCalls Module.successful m₁ between = .ok m₂ → (∀ c ∈ between, ¬ c.IsWrite) →
      t.pos = append → WritesFrom m₂.process memory t m₀.process.outPos) ∧
    ∀ m₀ filename bufferSize kernel object m₁ between m₂ memory t,
      runCalls Module.successful (start b around) cs = .ok m₀ →
      m₀.successful (.inConnect filename bufferSize kernel object) = .ok m₁ →
      runCalls Module.successful m₁ between = .ok m₂ → (∀ c ∈ between, ¬ c.IsRead) →
      t.pos = append → ReadsFrom m₂.process memory t m₀.process.inPos := by
  have hsteady : ∀ (m : Module b) c m', Steady m.process → m.successful c = .ok m' →
      Steady m'.process := fun m c m' h hcall => h.does (successful_does hcall)
  refine ⟨?_, ?_, ?_, ?_⟩
  · refine eachStep_of_invariant (fun m => Steady m.process) ?_ (steady_start around.space)
    intro m c m' h hcall
    have h' := hsteady m c m' h hcall
    exact ⟨⟨h'.outPos_nonneg, h'.inPos_nonneg⟩, h'⟩
  · refine eachStep_congr (fun m => Steady m.process ∧ Bounded m.process) ?_ ?_ ?_
    · rintro m c m' ⟨h, -⟩ hcall hbounded
      exact ⟨hsteady m c m' h hcall, hbounded⟩
    · rintro m c m' ⟨h, hbounded⟩ hcall
      rcases successful_eq_ok hcall with ⟨hok, hopened⟩
      exact bounded_does_iff h hbounded (call_does hok) hopened
    · refine ⟨steady_start around.space, fun size hsize => ?_, fun size hsize => ?_⟩ <;> cases hsize
  · intro m₀ filename bufferSize kernel object m₁ between m₂ memory t _ hcreate hbetween hquiet hpos
    have hkept : m₂.process.outPos = m₀.process.outPos :=
      (outPos_eq_of_run hquiet hbetween).trans ((successful_does hcreate).outPos_eq not_false)
    rw [← hkept]
    exact writesFrom_outPos hpos
  · intro m₀ filename bufferSize kernel object m₁ between m₂ memory t _ hconnect hbetween hquiet hpos
    have hkept : m₂.process.inPos = m₀.process.inPos :=
      (inPos_eq_of_run hquiet hbetween).trans ((successful_does hconnect).inPos_eq not_false)
    rw [← hkept]
    exact readsFrom_inPos hpos

/-- A segment with four bytes in it. -/
def fourBytes : List (Call posix) :=
  [.outCreate "out" 16 ⟨3, 0, 65536⟩ "out", .addressSet,
    .write (fun _ => 0) ⟨65, -1, [1, 2, 3, 4], 4⟩]

/-- The position is past the end of a small segment, and the first byte of a large one is written at
offset 4. -/
theorem positions_survive :
    (¬ ∀ (b : Backend) (around : Surroundings) (cs : List (Call b)),
      EachStep Module.successful (fun _ _ m' => Bounded m'.process) (start b around) cs) ∧
    ¬ ∀ (b : Backend) (around : Surroundings) (cs : List (Call b)) m₀ filename bufferSize kernel
        object m₁ between m₂ memory t,
      runCalls Module.successful (start b around) cs = .ok m₀ →
      m₀.successful (.outCreate filename bufferSize kernel object) = .ok m₁ →
      runCalls Module.successful m₁ between = .ok m₂ → (∀ c ∈ between, ¬ c.IsWrite) →
      t.pos = append → WritesFrom m₂.process memory t 0 := by
  constructor
  · intro h
    have hstep := h posix bare (fourBytes ++ [.outCreate "next" 4 ⟨3, 0, 131072⟩ "next"]) fourBytes
      _ _ _ (List.prefix_refl _) rfl rfl
    exact absurd (hstep.out 4 rfl) (by decide +kernel)
  · intro h
    have hquiet : ∀ c ∈ [(.addressSet : Call posix)], ¬ c.IsWrite := by
      intro c hc
      cases List.mem_singleton.1 hc
      exact not_false
    have hfrom := h posix bare fourBytes _ "next" 16 ⟨3, 0, 131072⟩ "next" _ [.addressSet] _
      (fun _ => 0) ⟨65, -1, [9], 1⟩ rfl rfl rfl hquiet rfl
    rcases hfrom 0 _ _ rfl with hrefused | ⟨len, hlen, hcopy⟩
    · exact absurd hrefused (Int.lt_irrefl 0)
    · cases hlen
      have hpos := congrArg Process.outPos (copyOut_process hcopy).2
      exact absurd hpos (by decide +kernel)

end Lifetimes

end Session
end SharedMemory
end LuajitTcpServer
