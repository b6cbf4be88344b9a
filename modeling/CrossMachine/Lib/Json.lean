import Mathlib.Data.List.Basic

/-!
# JSON texts

The grammar of JSON without white space, over characters. A string stands between quotation
marks. Its characters are shown as they are, but for the quotation mark, the backslash and the
control characters, which are only there as escapes. A literal has one value
(`Literal.unique`), and no control character is in it (`Literal.printable`).
-/

namespace CrossMachine.Lib.Json

/-! ## Strings -/

/-- The characters with a short escape. -/
def shortEscape : Char → Option Char
  | '"' => some '"'
  | '\\' => some '\\'
  | '/' => some '/'
  | 'b' => some '\x08'
  | 'f' => some '\x0c'
  | 'n' => some '\n'
  | 'r' => some '\r'
  | 't' => some '\t'
  | _ => none

def hexVal (c : Char) : Option Nat :=
  if '0' ≤ c ∧ c ≤ '9' then some (c.toNat - 48)
  else if 'a' ≤ c ∧ c ≤ 'f' then some (c.toNat - 87)
  else if 'A' ≤ c ∧ c ≤ 'F' then some (c.toNat - 55)
  else none

/-- `\u` and four digits. -/
def codeUnit (a b c d : Char) : Option Nat := do
  let a ← hexVal a
  let b ← hexVal b
  let c ← hexVal c
  let d ← hexVal d
  some (((a * 16 + b) * 16 + c) * 16 + d)

/-- A character that is shown as it is. -/
def Unescaped (c : Char) : Prop := 0x20 ≤ c.toNat ∧ c ≠ '"' ∧ c ≠ '\\'

instance (c : Char) : Decidable (Unescaped c) := inferInstanceAs (Decidable (_ ∧ _))

/-- What stands between the quotation marks, and its value. -/
inductive Body : List Char → List Char → Prop
  | nil : Body [] []
  | plain {c : Char} {t v : List Char} : Unescaped c → Body t v → Body (c :: t) (c :: v)
  | short {e c : Char} {t v : List Char} :
      shortEscape e = some c → Body t v → Body ('\\' :: e :: t) (c :: v)
  | unit {a b c d : Char} {n : Nat} {t v : List Char} :
      codeUnit a b c d = some n → n.isValidChar → Body t v →
        Body ('\\' :: 'u' :: a :: b :: c :: d :: t) (Char.ofNat n :: v)
  /-- A surrogate pair. -/
  | pair {a b c d a' b' c' d' : Char} {hi lo : Nat} {t v : List Char} :
      codeUnit a b c d = some (0xd800 + hi) → hi < 0x400 →
      codeUnit a' b' c' d' = some (0xdc00 + lo) → lo < 0x400 → Body t v →
        Body ('\\' :: 'u' :: a :: b :: c :: d :: '\\' :: 'u' :: a' :: b' :: c' :: d' :: t)
          (Char.ofNat (0x10000 + hi * 0x400 + lo) :: v)

/-- A string literal and its value. -/
def Literal (t v : List Char) : Prop := ∃ body, t = '"' :: (body ++ ['"']) ∧ Body body v

variable {t t' v w : List Char}

theorem hexVal_printable {c : Char} {n : Nat} (h : hexVal c = some n) : 0x20 ≤ c.toNat := by
  unfold hexVal at h
  split at h
  · next hc => exact Nat.le_trans (by decide) (show '0'.toNat ≤ c.toNat from hc.1)
  · split at h
    · next hc => exact Nat.le_trans (by decide) (show 'a'.toNat ≤ c.toNat from hc.1)
    · split at h
      · next hc => exact Nat.le_trans (by decide) (show 'A'.toNat ≤ c.toNat from hc.1)
      · cases h

theorem codeUnit_printable {a b c d : Char} {n : Nat} (h : codeUnit a b c d = some n) :
    ∀ x ∈ [a, b, c, d], 0x20 ≤ x.toNat := by
  simp only [codeUnit, Option.bind_eq_bind, Option.bind_eq_some_iff] at h
  obtain ⟨_, ha, _, hb, _, hc, _, hd, -⟩ := h
  simp only [List.forall_mem_cons]
  exact ⟨hexVal_printable ha, hexVal_printable hb, hexVal_printable hc, hexVal_printable hd,
    fun _ hx => absurd hx List.not_mem_nil⟩

theorem shortEscape_printable {e c : Char} (h : shortEscape e = some c) : 0x20 ≤ e.toNat := by
  unfold shortEscape at h
  split at h <;> first | decide | cases h

/-- **No control character is in a literal.** -/
theorem Body.printable (h : Body t v) : ∀ c ∈ t, 0x20 ≤ c.toNat := by
  have hslash : 0x20 ≤ '\\'.toNat := by decide
  have hu : 0x20 ≤ 'u'.toNat := by decide
  have hescape : ∀ {e t}, 0x20 ≤ e.toNat → (∀ c ∈ t, 0x20 ≤ c.toNat) →
      ∀ c ∈ '\\' :: e :: t, 0x20 ≤ c.toNat := fun he ht =>
    List.forall_mem_cons.mpr ⟨hslash, List.forall_mem_cons.mpr ⟨he, ht⟩⟩
  induction h with
  | nil => exact fun _ hc => absurd hc List.not_mem_nil
  | plain hc _ ih => exact List.forall_mem_cons.mpr ⟨hc.1, ih⟩
  | short he _ ih => exact hescape (shortEscape_printable he) ih
  | unit hn _ _ ih =>
      exact hescape hu (List.forall_mem_append.mpr ⟨codeUnit_printable hn, ih⟩)
  | pair hhi _ hlo _ _ ih =>
      have hlow := hescape hu (List.forall_mem_append.mpr ⟨codeUnit_printable hlo, ih⟩)
      exact hescape hu (List.forall_mem_append.mpr ⟨codeUnit_printable hhi, hlow⟩)

theorem Literal.printable (h : Literal t v) : ∀ c ∈ t, 0x20 ≤ c.toNat := by
  obtain ⟨body, rfl, hbody⟩ := h
  have hquote : 0x20 ≤ '"'.toNat := by decide
  refine List.forall_mem_cons.mpr ⟨hquote, List.forall_mem_append.mpr ⟨hbody.printable, ?_⟩⟩
  exact fun c hc => List.mem_singleton.mp hc ▸ hquote

theorem not_unescaped_backslash : ¬ Unescaped '\\' := fun h => h.2.2 rfl

/-- A single code unit is no half of a pair. -/
theorem not_isValidChar_surrogate {n : Nat} (h : n < 0x800) : ¬ (0xd800 + n).isValidChar := by
  unfold Nat.isValidChar
  omega

/-- **A literal has one value.** -/
theorem Body.unique (h : Body t v) (h' : Body t w) : v = w := by
  induction h generalizing w with
  | nil =>
      cases h'
      rfl
  | plain hc _ ih =>
      cases h' with
      | plain _ h' => rw [ih h']
      | short _ _ => exact absurd hc not_unescaped_backslash
      | unit _ _ _ => exact absurd hc not_unescaped_backslash
      | pair _ _ _ _ _ => exact absurd hc not_unescaped_backslash
  | short he _ ih =>
      cases h' with
      | plain hc _ => exact absurd hc not_unescaped_backslash
      | short he' h' => rw [ih h', Option.some.inj (he.symm.trans he')]
      | unit _ _ _ => cases he
      | pair _ _ _ _ _ => cases he
  | unit hn hvalid _ ih =>
      cases h' with
      | plain hc _ => exact absurd hc not_unescaped_backslash
      | short he _ => cases he
      | unit hn' _ h' => rw [ih h', Option.some.inj (hn.symm.trans hn')]
      | pair hhi hlt _ _ _ =>
          obtain rfl := Option.some.inj (hn.symm.trans hhi)
          exact absurd hvalid (not_isValidChar_surrogate (by omega))
  | pair hhi hlt hlo _ _ ih =>
      cases h' with
      | plain hc _ => exact absurd hc not_unescaped_backslash
      | short he _ => cases he
      | unit hn hvalid _ =>
          obtain rfl := Option.some.inj (hn.symm.trans hhi)
          exact absurd hvalid (not_isValidChar_surrogate (by omega))
      | pair hhi' _ hlo' _ h' =>
          obtain rfl := Nat.add_left_cancel (Option.some.inj (hhi.symm.trans hhi'))
          obtain rfl := Nat.add_left_cancel (Option.some.inj (hlo.symm.trans hlo'))
          rw [ih h']

theorem Literal.unique (h : Literal t v) (h' : Literal t w) : v = w := by
  obtain ⟨body, rfl, hbody⟩ := h
  obtain ⟨body', heq, hbody'⟩ := h'
  obtain rfl := List.append_cancel_right (List.cons.inj heq).2
  exact hbody.unique hbody'

/-- Characters that need no escape are a literal as they are. -/
theorem Unescaped.literal (h : ∀ c ∈ t, Unescaped c) : Literal ('"' :: (t ++ ['"'])) t := by
  refine ⟨t, rfl, ?_⟩
  induction t with
  | nil => exact .nil
  | cons c t ih =>
      obtain ⟨hc, ht⟩ := List.forall_mem_cons.mp h
      exact .plain hc (ih ht)

/-! ## Numbers -/

def Digits (t : List Char) : Prop := t ≠ [] ∧ ∀ c ∈ t, c.isDigit

/-- Digits without a leading zero. -/
def Whole (t : List Char) : Prop := t = ['0'] ∨ t.head? ≠ some '0' ∧ Digits t

def Fraction (t : List Char) : Prop := t = [] ∨ ∃ ds, Digits ds ∧ t = '.' :: ds

def Exponent (t : List Char) : Prop :=
  t = [] ∨ ∃ e sign ds, (e = 'e' ∨ e = 'E') ∧ (sign = [] ∨ sign = ['+'] ∨ sign = ['-']) ∧
    Digits ds ∧ t = e :: (sign ++ ds)

def Number (t : List Char) : Prop :=
  ∃ sign int frac exp, (sign = [] ∨ sign = ['-']) ∧ Whole int ∧ Fraction frac ∧ Exponent exp ∧
    t = sign ++ int ++ frac ++ exp

theorem head?_toDigits {n : Nat} (h : 0 < n) : (Nat.toDigits 10 n).head? ≠ some '0' := by
  induction n using Nat.strongRecOn with
  | ind n ih =>
      rcases Nat.lt_or_ge n 10 with hlt | hge
      · rw [Nat.toDigits_of_lt_base hlt, List.head?_cons, Ne, Option.some.injEq,
          Nat.digitChar_eq_zero]
        omega
      · rw [Nat.toDigits_of_base_le (by decide) hge,
          List.head?_append_of_ne_nil _ Nat.toDigits_ne_nil]
        exact ih (n / 10) (by omega) (by omega)

theorem number_toDigits (n : Nat) : Number (Nat.toDigits 10 n) := by
  refine ⟨[], Nat.toDigits 10 n, [], [], .inl rfl, ?_, .inl rfl, .inl rfl, by simp⟩
  rcases Nat.eq_zero_or_pos n with rfl | hpos
  · exact .inl rfl
  · exact .inr ⟨head?_toDigits hpos, Nat.toDigits_ne_nil,
      fun c hc => Nat.isDigit_of_mem_toDigits (by decide) (by decide) hc⟩

/-! ## Values -/

inductive Value where
  | null
  | bool (b : Bool)
  /-- A number is kept as it is written. -/
  | number (t : List Char)
  | string (s : List Char)
  | array (elements : List Value)
  | object (members : List (List Char × Value))

mutual

/-- The text of a value. -/
inductive Text : Value → List Char → Prop
  | null : Text .null ['n', 'u', 'l', 'l']
  | true : Text (.bool true) ['t', 'r', 'u', 'e']
  | false : Text (.bool false) ['f', 'a', 'l', 's', 'e']
  | number {t : List Char} : Number t → Text (.number t) t
  | string {t s : List Char} : Literal t s → Text (.string s) t
  | array {js : List Value} {t : List Char} :
      Elements js t → Text (.array js) ('[' :: (t ++ [']']))
  | object {ms : List (List Char × Value)} {t : List Char} :
      Members ms t → Text (.object ms) ('{' :: (t ++ ['}']))

/-- What stands between brackets. -/
inductive Elements : List Value → List Char → Prop
  | nil : Elements [] []
  | single {j : Value} {t : List Char} : Text j t → Elements [j] t
  | cons {j k : Value} {js : List Value} {t t' : List Char} :
      Text j t → Elements (k :: js) t' → Elements (j :: k :: js) (t ++ ',' :: t')

/-- What stands between braces. -/
inductive Members : List (List Char × Value) → List Char → Prop
  | nil : Members [] []
  | single {key k t : List Char} {j : Value} :
      Literal k key → Text j t → Members [(key, j)] (k ++ ':' :: t)
  | cons {key k t t' : List Char} {j : Value} {m : List Char × Value}
      {ms : List (List Char × Value)} :
      Literal k key → Text j t → Members (m :: ms) t' →
        Members ((key, j) :: m :: ms) (k ++ ':' :: t ++ ',' :: t')

end

end CrossMachine.Lib.Json
