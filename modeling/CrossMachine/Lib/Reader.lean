import Mathlib.Data.List.Basic

/-!
# Readers of bytes

A reader takes a value from the front of what is left of a message, and fails if there is too
little of it. What it accepts is a format: a relation between values and the bytes that stand for
them. `Parses` says that a reader is exact, so that it finds a value if and only if what is left
begins with bytes for it, and takes these and no more. Readers one after another read their
formats one after another (`Parses.bind_run`, and
`Parses.bind_write` where every value is written in one way).
-/

namespace CrossMachine.Lib

abbrev Reader (α : Type) := StateT (List UInt8) Option α

namespace Reader

variable {α β : Type} {s s' : List UInt8}

def byte : Reader UInt8 := fun s =>
  match s with
  | [] => none
  | b :: s => some (b, s)

def bytes (len : Nat) : Reader (List UInt8) := fun s =>
  if len ≤ s.length then some (s.take len, s.drop len) else none

/-- The reader and the format agree. -/
def Parses (r : Reader α) (P : α → List UInt8 → Prop) : Prop :=
  ∀ s x s', r.run s = some (x, s') ↔ ∃ m, P x m ∧ s = m ++ s'

theorem parses_byte : Parses byte fun b m => m = [b] := by
  intro s b s'
  cases s with
  | nil => simp [byte, StateT.run]
  | cons c s => simp [byte, StateT.run]

theorem parses_bytes (len : Nat) : Parses (bytes len) fun x m => x.length = len ∧ m = x := by
  intro s x s'
  simp only [bytes, StateT.run, Option.ite_none_right_eq_some, Option.some.injEq, Prod.mk.injEq]
  constructor
  · rintro ⟨hle, rfl, rfl⟩
    exact ⟨s.take len, ⟨List.length_take_of_le hle, rfl⟩, (List.take_append_drop len s).symm⟩
  · rintro ⟨m, ⟨rfl, rfl⟩, rfl⟩
    exact ⟨by simp, List.take_left, List.drop_left⟩

theorem pure_run {x y : α} : (pure x : Reader α).run s = some (y, s') ↔ x = y ∧ s = s' := by
  rw [StateT.run_pure]
  exact Option.some_inj.trans (iff_of_eq (Prod.mk.injEq ..))

theorem Parses.bind_run {r : Reader α} {P : α → List UInt8 → Prop} (h : Parses r P)
    {k : α → Reader β} {y : β} :
    (r >>= k).run s = some (y, s') ↔
      ∃ x m t, P x m ∧ s = m ++ t ∧ (k x).run t = some (y, s') := by
  rw [StateT.run_bind]
  refine Option.bind_eq_some_iff.trans ?_
  constructor
  · rintro ⟨⟨x, t⟩, hx, hy⟩
    obtain ⟨m, hm, rfl⟩ := (h s x t).mp hx
    exact ⟨x, m, t, hm, rfl, hy⟩
  · rintro ⟨x, m, t, hm, rfl, hy⟩
    exact ⟨(x, t), (h _ x t).mpr ⟨m, hm, rfl⟩, hy⟩

/-- A value with a single encoding. -/
theorem Parses.bind_write {r : Reader α} {ok : α → Prop} {write : α → List UInt8}
    (h : Parses r fun x m => ok x ∧ m = write x) {k : α → Reader β} {y : β} :
    (r >>= k).run s = some (y, s') ↔
      ∃ x t, ok x ∧ s = write x ++ t ∧ (k x).run t = some (y, s') := by
  rw [h.bind_run]
  constructor
  · rintro ⟨x, _, t, ⟨hx, rfl⟩, rfl, hy⟩
    exact ⟨x, t, hx, rfl, hy⟩
  · rintro ⟨x, t, hx, rfl, hy⟩
    exact ⟨x, _, t, ⟨hx, rfl⟩, rfl, hy⟩

end Reader

end CrossMachine.Lib
