import Mathlib.Logic.Function.Basic
import Mathlib.Tactic.Common

/-!
# ByteMemory — bytes behind address spaces

A memory holds a byte in each of its cells.  A process sees cells through its address space, at
most one at each address; a cell can be seen by several processes, at different addresses.

* `load` and `store` are accesses through an address space.
* `window` and `patch` are the same accesses to a row of cells: on a range of addresses that the
  row is mapped at (`Maps`), they are what `load` and `store` do (`load_maps`, `store_maps`).
-/

namespace ByteMemory

variable {ι : Type}

abbrev Memory (ι : Type) := ι → UInt8

/-- What a process sees at each address. -/
abbrev Space (ι : Type) := Int → Option ι

/-! ## Accesses -/

/-- The `len` bytes from address `addr` on, if there is a cell at each. -/
def load (space : Space ι) (memory : Memory ι) (addr : Int) : Nat → Option (List UInt8)
  | 0 => some []
  | len + 1 =>
      match space addr with
      | some cell => (load space memory (addr + 1) len).map (memory cell :: ·)
      | none => none

/-- The addresses of an access to `len` bytes from `addr` on. -/
def addresses (addr : Int) : Nat → List Int
  | 0 => []
  | len + 1 => addr :: addresses (addr + 1) len

/-- The `len` bytes of a row of cells, from cell `off` on. -/
def window (cells : Int → UInt8) (off : Int) : Nat → List UInt8
  | 0 => []
  | len + 1 => cells off :: window cells (off + 1) len

section Stores

variable [DecidableEq ι]

def store (space : Space ι) (memory : Memory ι) (addr : Int) : List UInt8 → Option (Memory ι)
  | [] => some memory
  | byte :: rest =>
      match space addr with
      | some cell => store space (Function.update memory cell byte) (addr + 1) rest
      | none => none

/-- The memory after `bytes` have been written into a row of cells, from cell `off` on. -/
def patch (memory : Memory ι) (row : Int → ι) (off : Int) : List UInt8 → Memory ι
  | [] => memory
  | byte :: rest => patch (Function.update memory (row off) byte) row (off + 1) rest

end Stores

/-- The contents of a file, or of any other row of bytes, after `bytes` have been written at
`off`. -/
def overlay (content : Int → UInt8) (off : Int) (bytes : List UInt8) : Int → UInt8 :=
  patch content id off bytes

/-! ## Mapped ranges -/

/-- Cells `0` to `size - 1` of a row are seen from address `addr` on. -/
def Maps (space : Space ι) (addr : Int) (row : Int → ι) (size : Int) : Prop :=
  ∀ i, 0 ≤ i → i < size → space (addr + i) = some (row i)

section Ranges

variable {space : Space ι} {memory : Memory ι} {addr size off : Int} {row : Int → ι}

/-- The row without its first `k` cells. -/
theorem Maps.drop (h : Maps space addr row size) {k : Int} (hk : 0 ≤ k) :
    Maps space (addr + k) (fun i => row (k + i)) (size - k) := by
  intro i hi hlt
  have hin := h (k + i) (by omega) (by omega)
  simpa [Int.add_assoc] using hin

theorem load_maps (h : Maps space addr row size) {len : Nat} (hoff : 0 ≤ off)
    (hlen : off + len ≤ size) :
    load space memory (addr + off) len = some (window (fun i => memory (row i)) off len) := by
  induction len generalizing off with
  | zero =>
      rfl
  | succ len ih =>
      -- the first byte is in the range, and the rest is a shorter access from the next one on
      have hcell : space (addr + off) = some (row off) := h off hoff (by omega)
      have hrest : load space memory (addr + (off + 1)) len =
          some (window (fun i => memory (row i)) (off + 1) len) :=
        ih (by omega) (by omega)
      simp [load, window, hcell, Int.add_assoc, hrest]

theorem mem_addresses {len : Nat} {a : Int} :
    a ∈ addresses addr len ↔ addr ≤ a ∧ a < addr + len := by
  induction len generalizing addr with
  | zero =>
      simp only [addresses, List.not_mem_nil, false_iff]
      omega
  | succ len ih =>
      simp only [addresses, List.mem_cons, ih]
      omega

/-- A load reads what is at its addresses, one after the other. -/
theorem load_eq_mapM {len : Nat} :
    load space memory addr len = (addresses addr len).mapM fun a => (space a).map memory := by
  induction len generalizing addr with
  | zero =>
      rfl
  | succ len ih =>
      cases hcell : space addr with
      | none =>
          simp [load, addresses, hcell]
      | some cell =>
          simp [load, addresses, hcell, ih, Option.map_eq_bind, Function.comp_def]

theorem load_length {len : Nat} {bytes : List UInt8} (h : load space memory addr len = some bytes) :
    bytes.length = len := by
  induction len generalizing addr bytes with
  | zero =>
      cases h
      rfl
  | succ len ih =>
      cases hcell : space addr with
      | none =>
          simp [load, hcell] at h
      | some cell =>
          simp only [load, hcell, Option.map_eq_some_iff] at h
          rcases h with ⟨rest, hrest, rfl⟩
          simp [ih hrest]

theorem store_maps [DecidableEq ι] (h : Maps space addr row size) {bytes : List UInt8}
    (hoff : 0 ≤ off) (hlen : off + bytes.length ≤ size) :
    store space memory (addr + off) bytes = some (patch memory row off bytes) := by
  induction bytes generalizing off memory with
  | nil =>
      rfl
  | cons byte rest ih =>
      simp only [List.length_cons] at hlen
      have hcell : space (addr + off) = some (row off) := h off hoff (by omega)
      have hrest := @ih (Function.update memory (row off) byte) (off + 1) (by omega) (by omega)
      simpa [store, patch, hcell, Int.add_assoc] using hrest

end Ranges

/-! ## Rows -/

section Rows

variable [DecidableEq ι] {memory : Memory ι} {row : Int → ι} {content content' : Int → UInt8}
  {off : Int} {bytes : List UInt8}

/-- Seen along the row, a patch is an overlay. -/
theorem patch_row (hrow : Function.Injective row) :
    (fun i => patch memory row off bytes (row i)) = overlay (fun i => memory (row i)) off bytes := by
  induction bytes generalizing memory off with
  | nil =>
      rfl
  | cons byte rest ih =>
      have hupdate : (fun i => Function.update memory (row off) byte (row i)) =
          Function.update (fun i => memory (row i)) off byte :=
        Function.update_comp_eq_of_injective memory hrow off byte
      have hrest := @ih (Function.update memory (row off) byte) (off + 1)
      rw [hupdate] at hrest
      exact hrest

/-- Cells that are not written to are as they were. -/
theorem patch_frame {cell : ι} (h : ∀ i, off ≤ i → i < off + bytes.length → row i ≠ cell) :
    patch memory row off bytes cell = memory cell := by
  induction bytes generalizing memory off with
  | nil =>
      rfl
  | cons byte rest ih =>
      simp only [List.length_cons] at h
      have hhead : row off ≠ cell := h off (Int.le_refl off) (by omega)
      calc patch memory row off (byte :: rest) cell
          = Function.update memory (row off) byte cell := ih fun i hi hlt => h i (by omega) (by omega)
        _ = memory cell := Function.update_of_ne hhead.symm _ _

/-- Contents that agree at some offset agree there after the same write. -/
theorem overlay_congr {i : Int} (h : content i = content' i) :
    overlay content off bytes i = overlay content' off bytes i := by
  induction bytes generalizing content content' off with
  | nil =>
      exact h
  | cons byte rest ih =>
      apply ih
      -- the first byte is the same in both, the others are as they were
      by_cases hi : i = off
      · simp [hi]
      · simpa [hi] using h

theorem overlay_of_lt {i : Int} (hi : i < off) : overlay content off bytes i = content i := by
  induction bytes generalizing content off with
  | nil =>
      rfl
  | cons byte rest ih =>
      calc overlay content off (byte :: rest) i
          = Function.update content off byte i := ih (by omega)
        _ = content i := Function.update_of_ne (by omega) _ _

theorem overlay_apply {i : Nat} :
    overlay content off bytes (off + i) = bytes.getD i (content (off + i)) := by
  induction bytes generalizing content off i with
  | nil =>
      rfl
  | cons byte rest ih =>
      cases i with
      | zero =>
          have hfirst : overlay (Function.update content off byte) (off + 1) rest (off + (0 : Nat)) =
              Function.update content off byte (off + (0 : Nat)) := overlay_of_lt (by omega)
          calc overlay content off (byte :: rest) (off + (0 : Nat))
              = Function.update content off byte (off + (0 : Nat)) := hfirst
            _ = byte := by simp
      | succ i =>
          have hoff : off + (i + 1 : Nat) = off + 1 + i := by omega
          have hne : off + 1 + (i : Int) ≠ off := by omega
          rw [hoff]
          calc overlay content off (byte :: rest) (off + 1 + i)
              = rest.getD i (Function.update content off byte (off + 1 + i)) := ih
            _ = rest.getD i (content (off + 1 + i)) := by
                rw [Function.update_of_ne hne]

theorem overlay_append (bytes' : List UInt8) :
    overlay (overlay content off bytes) (off + bytes.length) bytes' =
      overlay content off (bytes ++ bytes') := by
  induction bytes generalizing content off with
  | nil =>
      simp [overlay, patch]
  | cons byte rest ih =>
      have hrest := @ih (Function.update content off byte) (off + 1)
      have hlen : off + (byte :: rest).length = off + 1 + rest.length := by
        simp only [List.length_cons]
        omega
      rw [hlen]
      exact hrest

theorem window_congr {len : Nat} (h : ∀ i, off ≤ i → content i = content' i) :
    window content off len = window content' off len := by
  induction len generalizing off with
  | zero =>
      rfl
  | succ len ih =>
      have hrest : window content (off + 1) len = window content' (off + 1) len :=
        ih fun i hi => h i (by omega)
      simp [window, h off (Int.le_refl off), hrest]

theorem window_shift {len : Nat} (k : Int) :
    window (fun i => content (k + i)) off len = window content (k + off) len := by
  induction len generalizing off with
  | zero =>
      rfl
  | succ len ih =>
      simp [window, ih, Int.add_assoc]

/-- What has been written is read back. -/
theorem window_overlay : window (overlay content off bytes) off bytes.length = bytes := by
  induction bytes generalizing content off with
  | nil =>
      rfl
  | cons byte rest ih =>
      have hhead : overlay content off (byte :: rest) off = byte := by
        calc overlay content off (byte :: rest) off
            = Function.update content off byte off := overlay_of_lt (Int.lt_succ off)
          _ = byte := Function.update_self _ _ _
      have htail : window (overlay content off (byte :: rest)) (off + 1) rest.length = rest :=
        @ih (Function.update content off byte) (off + 1)
      simp [window, hhead, htail]

theorem window_length {len : Nat} : (window content off len).length = len := by
  induction len generalizing off with
  | zero =>
      rfl
  | succ len ih =>
      rw [window, List.length_cons, ih]

theorem window_append {m n : Nat} :
    window content off (m + n) = window content off m ++ window content (off + m) n := by
  induction m generalizing off with
  | zero =>
      simp [window]
  | succ m ih =>
      have hlen : m + 1 + n = m + n + 1 := by omega
      have hoff : off + (m + 1 : Nat) = off + 1 + m := by omega
      rw [hlen, hoff, window, window, ih, List.cons_append]

/-- A write leaves what is in front of it as it was. -/
theorem window_overlay_of_le {start : Int} {len : Nat} (h : start + len ≤ off) :
    window (overlay content off bytes) start len = window content start len := by
  induction len generalizing start with
  | zero =>
      rfl
  | succ len ih =>
      have hhead : overlay content off bytes start = content start := overlay_of_lt (by omega)
      rw [window, window, hhead, ih (by omega)]

/-- A write at the end of a range replaces the end of what is read there. -/
theorem window_overlay_end {start : Nat} :
    window (overlay content start bytes) 0 (start + bytes.length) =
      (window content 0 (start + bytes.length)).take start ++ bytes := by
  have hfront : window (overlay content start bytes) 0 start = window content 0 start :=
    window_overlay_of_le (by omega)
  have hlength : (window content 0 start).length = start := window_length
  rw [window_append, window_append, hfront, Int.zero_add, window_overlay,
    List.take_left' hlength]

end Rows

end ByteMemory
