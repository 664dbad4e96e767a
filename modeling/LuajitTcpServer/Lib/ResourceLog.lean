import Mathlib.Data.List.Infix
import Mathlib.Tactic.Common

/-!
# ResourceLog — what a log of system calls holds

Some events of a log acquire a resource, others release the resources with some key.  `held` is
what a log has acquired and not released since; `ReleasesHeld` says that every release in it was of
a key that was held at that moment.
-/

namespace ResourceLog

/-- How the events of type `ε` account for resources of type `ρ`, which are released by their key.
`spares` are the resources that a release leaves; a wrong one can take others with it. -/
structure Accounts (ε ρ κ : Type) [DecidableEq κ] where
  acquired : ε → Option ρ
  released : ε → Option κ
  key : ρ → κ
  spares : κ → ρ → Bool := fun k r => key r ≠ k

variable {ε ρ κ : Type} [DecidableEq κ] (a : Accounts ε ρ κ)

def note (resources : List ρ) (event : ε) : List ρ :=
  (match a.released event with
    | some k => resources.filter (a.spares k)
    | none => resources) ++ (a.acquired event).toList

def held (log : List ε) : List ρ := log.foldl (note a) []

def ReleasesHeld (log : List ε) : Prop :=
  ∀ pre event k, pre ++ [event] <+: log → a.released event = some k →
    ∃ r ∈ held a pre, a.key r = k

variable {a} {log : List ε} {event : ε} {k : κ} {r : ρ}

theorem held_snoc : held a (log ++ [event]) = note a (held a log) event := by
  rw [held, List.foldl_append]
  rfl

theorem held_snoc_neutral (hacq : a.acquired event = none) (hrel : a.released event = none) :
    held a (log ++ [event]) = held a log := by
  simp [held_snoc, note, hacq, hrel]

theorem held_snoc_acquire (hacq : a.acquired event = some r) (hrel : a.released event = none) :
    held a (log ++ [event]) = held a log ++ [r] := by
  simp [held_snoc, note, hacq, hrel]

theorem held_snoc_release (hacq : a.acquired event = none) (hrel : a.released event = some k) :
    held a (log ++ [event]) = (held a log).filter (a.spares k) := by
  simp [held_snoc, note, hacq, hrel]

theorem releasesHeld_nil : ReleasesHeld a [] := by
  intro pre event k hpre _
  simp at hpre

theorem releasesHeld_snoc :
    ReleasesHeld a (log ++ [event]) ↔
      ReleasesHeld a log ∧ ∀ k, a.released event = some k → ∃ r ∈ held a log, a.key r = k := by
  constructor
  · intro h
    refine ⟨fun pre event' k hpre => h pre event' k (hpre.trans (List.prefix_append _ _)), ?_⟩
    exact fun k => h log event k (List.prefix_refl _)
  · rintro ⟨h, hlast⟩ pre event' k hpre hrel
    rcases List.prefix_concat_iff.1 hpre with heq | hpre'
    · -- the release is the last event
      rcases List.append_inj' heq rfl with ⟨rfl, hevent⟩
      cases hevent
      exact hlast k hrel
    · exact h pre event' k hpre' hrel

theorem releasesHeld_snoc_neutral (hrel : a.released event = none) :
    ReleasesHeld a (log ++ [event]) ↔ ReleasesHeld a log := by
  simp [releasesHeld_snoc, hrel]

theorem releasesHeld_snoc_release (hrel : a.released event = some k) :
    ReleasesHeld a (log ++ [event]) ↔ ReleasesHeld a log ∧ ∃ r ∈ held a log, a.key r = k := by
  simp [releasesHeld_snoc, hrel]

/-- The events in between concern other resources. -/
structure Neutral (a : Accounts ε ρ κ) (log log' : List ε) : Prop where
  held_eq : held a log' = held a log
  releases_iff : ReleasesHeld a log' ↔ ReleasesHeld a log

theorem Neutral.refl (log : List ε) : Neutral a log log := ⟨rfl, Iff.rfl⟩

theorem Neutral.trans {log₁ log₂ log₃ : List ε} (h₁ : Neutral a log₁ log₂)
    (h₂ : Neutral a log₂ log₃) : Neutral a log₁ log₃ :=
  ⟨h₂.held_eq.trans h₁.held_eq, h₂.releases_iff.trans h₁.releases_iff⟩

theorem neutral_snoc (hacq : a.acquired event = none) (hrel : a.released event = none) :
    Neutral a log (log ++ [event]) :=
  ⟨held_snoc_neutral hacq hrel, releasesHeld_snoc_neutral hrel⟩

theorem neutral_append {more : List ε}
    (h : ∀ event ∈ more, a.acquired event = none ∧ a.released event = none) :
    Neutral a log (log ++ more) := by
  induction more generalizing log with
  | nil =>
      rw [List.append_nil]
      exact Neutral.refl log
  | cons event more ih =>
      rcases h event List.mem_cons_self with ⟨hacq, hrel⟩
      rw [List.append_cons]
      exact (neutral_snoc hacq hrel).trans
        (ih fun event' hmem => h event' (List.mem_cons_of_mem _ hmem))

end ResourceLog
