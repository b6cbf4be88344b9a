import CrossMachine.Lib.Arena
import CrossMachine.Lib.Sorter

/-!
# The tensor IR that the passes work on

A function of the `runtime` dialect with a single block: a list of operations, each with its
operands, the types of its results and the attributes that the passes of this development
read or write. A value is a block argument or a result of an operation, and an operation is
known by its `id`, which stands for the `Operation *` of the source.

Kinds name the operations that the passes tell apart; every other operation of any dialect
(with its attributes, and with its region if it has one) is an `other`. Program order is the
timeline: the time of an operation is its position in the block.
-/

namespace CrossMachine.Compiler

open Lib

/-- The element types that `AnyRuntimeTensor` admits. -/
inductive Elem
  | float (bits : Nat)
  | int (bits : Nat)
  deriving DecidableEq, Repr

/-- `Type::getIntOrFloatBitWidth`. -/
def Elem.bitWidth : Elem → Nat
  | .float bits => bits
  | .int bits => bits

/-- A ranked tensor, where `none` is a dynamic dimension, or any other type. -/
inductive Ty
  | tensor (shape : List (Option Nat)) (elem : Elem)
  | other (tag : Nat)
  deriving DecidableEq, Repr

/-- The shape and element type of a ranked tensor whose shape is static. -/
def Ty.static? : Ty → Option (List Nat × Elem)
  | .tensor shape elem => (shape.mapM id).map fun dims => (dims, elem)
  | .other _ => none

/-- A block argument, or result `k` of the operation `op`. -/
inductive Val
  | arg (i : Nat)
  | res (op k : Nat)
  deriving DecidableEq, Repr

inductive Kind (κ : Type)
  | relu
  | gelu
  | sigmoid
  | add
  | mul
  | sub
  | other (k : κ)
  deriving DecidableEq, Repr

structure Op (κ : Type) where
  id : Nat
  kind : Kind κ
  operands : List Val
  results : List Ty
  /-- The attribute `runtime.buffer_offset`. -/
  bufferOffset : Option Int
  deriving DecidableEq, Repr

structure Func (κ : Type) where
  args : List Ty
  body : List (Op κ)
  /-- The attribute `runtime.peak_memory_bytes`. -/
  peakMemoryBytes : Option Int
  /-- The attribute `runtime.remat_ops_inserted`. -/
  rematOpsInserted : Option Nat
  deriving DecidableEq, Repr

variable {κ : Type} {body : List (Op κ)} {o o' : Op κ} {v : Val} {nargs t : Nat}

/-- The operation with its uses of one value turned into uses of another. -/
def Op.rewire (o : Op κ) (v v' : Val) : Op κ :=
  { o with operands := o.operands.map fun w => if w = v then v' else w }

def ids (body : List (Op κ)) : List Nat := body.map Op.id

/-- `timeOf.lookup`: the position of an operation, and zero for one that has none. -/
def timeOf (body : List (Op κ)) (op : Nat) : Nat :=
  (body.findIdx? fun o => o.id = op).getD 0

/-- `Value::getUsers`: one entry for every operand that is the value. -/
def users (body : List (Op κ)) (v : Val) : List Nat :=
  body.flatMap fun o => List.replicate (o.operands.count v) o.id

theorem mem_users {u : Nat} : u ∈ users body v ↔ ∃ o ∈ body, o.id = u ∧ v ∈ o.operands := by
  simp only [users, List.mem_flatMap, List.mem_replicate, ne_eq, List.count_eq_zero, not_not]
  exact ⟨fun ⟨o, ho, hv, hu⟩ => ⟨o, ho, hu.symm, hv⟩, fun ⟨o, ho, hu, hv⟩ => ⟨o, ho, hv, hu.symm⟩⟩

theorem mem_ids (h : o ∈ body) : o.id ∈ ids body := List.mem_map_of_mem h

/-- Operations are told apart by their ids. -/
theorem eq_of_id (hnodup : (ids body).Nodup) (h : o ∈ body) (h' : o' ∈ body)
    (hid : o.id = o'.id) : o = o' :=
  List.inj_on_of_nodup_map hnodup h h' hid

theorem find?_id (hnodup : (ids body).Nodup) (h : o ∈ body) :
    (body.find? fun p => p.id = o.id) = some o := by
  cases hp : body.find? fun p => p.id = o.id with
  | none => exact absurd (List.find?_eq_none.mp hp o h) (by simp)
  | some p =>
      have hid : p.id = o.id := by simpa using List.find?_some hp
      rw [eq_of_id hnodup (List.mem_of_find?_eq_some hp) h hid]

theorem timeOf_getElem (hnodup : (ids body).Nodup) (h : body[t]? = some o) :
    timeOf body o.id = t := by
  obtain ⟨hlt, rfl⟩ := List.getElem?_eq_some_iff.mp h
  have hidx : body.findIdx? (fun p => p.id = body[t].id) = some t := by
    refine List.findIdx?_eq_some_iff_getElem.mpr ⟨hlt, by simp, fun j hj => ?_⟩
    have hj' : j < (ids body).length := by simpa [ids] using hj.trans hlt
    have ht' : t < (ids body).length := by simpa [ids] using hlt
    have hne : (ids body)[j] ≠ (ids body)[t] :=
      fun heq => absurd ((List.Nodup.getElem_inj_iff hnodup).mp heq) (by omega)
    simpa [ids] using hne
  rw [timeOf, hidx]
  rfl

/-- In a block an operation stands where its time says. -/
theorem getElem_timeOf (hnodup : (ids body).Nodup) (h : o ∈ body) :
    body[timeOf body o.id]? = some o := by
  obtain ⟨t, ht⟩ := List.mem_iff_getElem?.mp h
  rw [timeOf_getElem hnodup ht, ht]

/-! ## Well-formed blocks -/

/-- The value is an argument or a result of one of these operations. -/
def Defined (nargs : Nat) (seen : List (Op κ)) : Val → Prop
  | .arg i => i < nargs
  | .res op k => ∃ o ∈ seen, o.id = op ∧ k < o.results.length

instance (nargs : Nat) (seen : List (Op κ)) : (v : Val) → Decidable (Defined nargs seen v)
  | .arg i => inferInstanceAs (Decidable (i < nargs))
  | .res op k => inferInstanceAs (Decidable (∃ o ∈ seen, o.id = op ∧ k < o.results.length))

/-- Every operand is defined by `seen` or by an operation that comes before its user. -/
def DefinedFirst (nargs : Nat) : List (Op κ) → List (Op κ) → Prop
  | _, [] => True
  | seen, o :: body =>
      (∀ v ∈ o.operands, Defined nargs seen v) ∧ DefinedFirst nargs (seen ++ [o]) body

instance decidableDefinedFirst (nargs : Nat) :
    (seen body : List (Op κ)) → Decidable (DefinedFirst nargs seen body)
  | _, [] => inferInstanceAs (Decidable True)
  | seen, o :: body =>
      have := decidableDefinedFirst nargs (seen ++ [o]) body
      inferInstanceAs (Decidable (_ ∧ _))

/-- SSA form: no two operations are the same, and definitions come before uses. -/
structure Ssa (nargs : Nat) (body : List (Op κ)) : Prop where
  nodup : (ids body).Nodup
  first : DefinedFirst nargs [] body

instance (nargs : Nat) (body : List (Op κ)) : Decidable (Ssa nargs body) :=
  decidable_of_iff ((ids body).Nodup ∧ DefinedFirst nargs [] body)
    ⟨fun h => ⟨h.1, h.2⟩, fun h => ⟨h.1, h.2⟩⟩

theorem definedFirst_append {seen xs ys : List (Op κ)} :
    DefinedFirst nargs seen (xs ++ ys) ↔
      DefinedFirst nargs seen xs ∧ DefinedFirst nargs (seen ++ xs) ys := by
  induction xs generalizing seen with
  | nil => simp [DefinedFirst]
  | cons o xs ih => simp [DefinedFirst, ih, and_assoc]

theorem Defined.mono {seen seen' : List (Op κ)} (h : Defined nargs seen v)
    (hsub : ∀ o ∈ seen, ∃ o' ∈ seen', o'.id = o.id ∧ o'.results = o.results) :
    Defined nargs seen' v := by
  cases v with
  | arg i => exact h
  | res op k =>
      obtain ⟨o, ho, hid, hk⟩ := h
      obtain ⟨o', ho', hid', hres⟩ := hsub o ho
      exact ⟨o', ho', hid'.trans hid, hres ▸ hk⟩

theorem DefinedFirst.mono {seen seen' : List (Op κ)} (h : DefinedFirst nargs seen body)
    (hsub : ∀ o ∈ seen, ∃ o' ∈ seen', o'.id = o.id ∧ o'.results = o.results) :
    DefinedFirst nargs seen' body := by
  induction body generalizing seen seen' with
  | nil => trivial
  | cons p body ih =>
      refine ⟨fun v hv => (h.1 v hv).mono hsub, ih h.2 fun q hq => ?_⟩
      rcases List.mem_append.mp hq with hq | hq
      · obtain ⟨q', hq', heq⟩ := hsub q hq
        exact ⟨q', List.mem_append_left _ hq', heq⟩
      · exact ⟨q, List.mem_append_right _ hq, rfl, rfl⟩

/-! ## Live ranges and planned bytes -/

/-- The operation at time `t` reads the value. -/
def UsedAt (body : List (Op κ)) (v : Val) (t : Nat) : Prop :=
  ∃ o, body[t]? = some o ∧ v ∈ o.operands

/-- Result `k` of `o` is live from the operation's own time to its last use. -/
def LiveAt (body : List (Op κ)) (o : Op κ) (k t : Nat) : Prop :=
  ∃ d, body[d]? = some o ∧ d ≤ t ∧ (t = d ∨ ∃ u, t ≤ u ∧ UsedAt body (.res o.id k) u)

end CrossMachine.Compiler
