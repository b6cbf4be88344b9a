import Mathlib.Data.List.Basic

/-!
# Fields of a block

A block of a fixed size whose fields are written at their offsets. A field reads back what was
last written to it, and writes elsewhere do not disturb it.
-/

namespace CrossMachine.Lib.Bytes

variable {α : Type*} {block field : List α} {start offset len : Nat}

/-- The `len` elements from `offset` on. -/
def slice (block : List α) (offset len : Nat) : List α := (block.drop offset).take len

/-- The block with a field written over what it had at `offset`. -/
def writeAt (block : List α) (offset : Nat) (field : List α) : List α :=
  block.take offset ++ (field ++ block.drop (offset + field.length))

theorem length_writeAt (h : offset + field.length ≤ block.length) :
    (writeAt block offset field).length = block.length := by
  simp only [writeAt, List.length_append, List.length_take, List.length_drop]
  omega

theorem slice_writeAt_self (h : offset + field.length ≤ block.length)
    (hlen : len = field.length) : slice (writeAt block offset field) offset len = field := by
  have hoff : (block.take offset).length = offset := by
    rw [List.length_take]
    omega
  rw [slice, writeAt, List.drop_append_of_le_length (by omega), List.drop_of_length_le (by omega),
    List.nil_append, hlen, List.take_left]

/-- A field that ends before the written one is as it was. -/
theorem slice_writeAt_before (hbefore : start + len ≤ offset) (h : offset ≤ block.length) :
    slice (writeAt block offset field) start len = slice block start len := by
  have hoff : (block.take offset).length = offset := by
    rw [List.length_take]
    omega
  rw [slice, writeAt, List.drop_append_of_le_length (by omega),
    List.take_append_of_le_length (by rw [List.length_drop]; omega), List.drop_take,
    List.take_take, Nat.min_eq_left (by omega), slice]

/-- A field that starts behind the written one is as it was. -/
theorem slice_writeAt_after (hafter : offset + field.length ≤ start)
    (h : offset ≤ block.length) :
    slice (writeAt block offset field) start len = slice block start len := by
  have hoff : (block.take offset).length = offset := by
    rw [List.length_take]
    omega
  have hdrop : (writeAt block offset field).drop start = block.drop start := by
    rw [writeAt, List.drop_append, List.drop_append, List.drop_of_length_le (by omega),
      List.drop_of_length_le (by omega), List.nil_append, List.nil_append, List.drop_drop, hoff]
    congr 1
    omega
  rw [slice, hdrop, slice]

/-! ## Several fields -/

/-- The fields are written one after another. -/
def writeAll (block : List α) (writes : List (Nat × List α)) : List α :=
  writes.foldl (fun block w => writeAt block w.1 w.2) block

variable {writes : List (Nat × List α)}

theorem writeAll_append (block : List α) (writes writes' : List (Nat × List α)) :
    writeAll block (writes ++ writes') = writeAll (writeAll block writes) writes' :=
  List.foldl_append

theorem length_writeAll (h : ∀ w ∈ writes, w.1 + w.2.length ≤ block.length) :
    (writeAll block writes).length = block.length := by
  induction writes generalizing block with
  | nil => rfl
  | cons w writes ih =>
      have hlen := length_writeAt (h w List.mem_cons_self)
      rw [writeAll, List.foldl_cons, ← hlen]
      exact ih fun w' hw' => hlen ▸ h w' (List.mem_cons_of_mem _ hw')

/-- A field that no write touches is as it was. -/
theorem slice_writeAll_apart (h : ∀ w ∈ writes, w.1 + w.2.length ≤ block.length)
    (hapart : ∀ w ∈ writes, start + len ≤ w.1 ∨ w.1 + w.2.length ≤ start) :
    slice (writeAll block writes) start len = slice block start len := by
  induction writes generalizing block with
  | nil => rfl
  | cons w writes ih =>
      have hw := h w List.mem_cons_self
      have hlen := length_writeAt hw
      have hrest := @ih (writeAt block w.1 w.2)
        (fun w' hw' => hlen ▸ h w' (List.mem_cons_of_mem _ hw'))
        fun w' hw' => hapart w' (List.mem_cons_of_mem _ hw')
      rcases hapart w List.mem_cons_self with hbefore | hafter
      · exact hrest.trans (slice_writeAt_before hbefore (by omega))
      · exact hrest.trans (slice_writeAt_after hafter (by omega))

/-- A field that no later write touches reads back. -/
theorem slice_writeAll_self (before after : List (Nat × List α))
    (h : ∀ w ∈ before ++ (offset, field) :: after, w.1 + w.2.length ≤ block.length)
    (hlen : len = field.length)
    (hapart : ∀ w ∈ after, offset + len ≤ w.1 ∨ w.1 + w.2.length ≤ offset) :
    slice (writeAll block (before ++ (offset, field) :: after)) offset len = field := by
  have hbefore : (writeAll block before).length = block.length :=
    length_writeAll fun w hw => h w (List.mem_append_left _ hw)
  have hfield : offset + field.length ≤ (writeAll block before).length :=
    hbefore ▸ h (offset, field) (by simp)
  have hall : writeAll block (before ++ (offset, field) :: after) =
      writeAll (writeAt (writeAll block before) offset field) after :=
    writeAll_append block before ((offset, field) :: after)
  rw [hall, slice_writeAll_apart (fun w hw => ?_) hapart, slice_writeAt_self hfield hlen]
  rw [length_writeAt hfield, hbefore]
  exact h w (by simp [hw])

/-- A string that ends with the first `stop` of the block. -/
theorem takeWhile_of_slice [DecidableEq α] {stop : α} (h : stop ∉ field)
    (hslice : slice block 0 (field.length + 1) = field ++ [stop]) :
    (block.takeWhile fun x => x ≠ stop) = field := by
  rw [slice, List.drop_zero] at hslice
  have hsplit : block = field ++ stop :: block.drop (field.length + 1) := by
    conv_lhs => rw [← List.take_append_drop (field.length + 1) block, hslice]
    rw [List.append_assoc, List.singleton_append]
  have hfield : ∀ x ∈ field, decide (x ≠ stop) = true := fun x hx =>
    decide_eq_true fun heq => h (heq ▸ hx)
  rw [hsplit, List.takeWhile_append_of_pos hfield, List.takeWhile_cons_of_neg (by simp),
    List.append_nil]

end CrossMachine.Lib.Bytes
