import Mathlib

/-! Strings as the Java library handles them: `split` by one character, and decimal numbers
of a fixed width. -/
namespace JavaText

abbrev JString := List Char

instance (s : JString) (l : List JString) : Decidable (s ∈ l) :=
  inferInstanceAs (Decidable (s ∈ l))

/-- `String.split` by a single character: trailing empty pieces are dropped, and a string
without the character is its own only piece. -/
def split (sep : Char) (s : JString) : List JString :=
  if sep ∈ s then (s.splitOn sep).rdropWhile List.isEmpty else [s]

theorem not_mem_of_mem_splitOn {sep : Char} {s p : JString} (h : p ∈ s.splitOn sep) : sep ∉ p := by
  induction s generalizing p with
  | nil =>
    rw [List.splitOn_nil,List.mem_singleton] at h
    simp [h]
  | cons c s ih =>
    rw [List.splitOn_cons_eq_if_modifyHead] at h
    by_cases hc : (c == sep) = true
    · rw [if_pos hc] at h
      rcases List.mem_cons.mp h with rfl | h
      · simp
      · exact ih h
    · rw [if_neg hc] at h
      cases hs : s.splitOn sep with
      | nil => simp [hs] at h
      | cons q qs =>
        rw [hs,List.modifyHead_cons] at h
        rcases List.mem_cons.mp h with rfl | h
        · have hq := ih (p:=q) (by simp [hs])
          have hne : sep ≠ c := by
            rintro rfl
            simp at hc
          simp [hq,hne]
        · exact ih (by simp [hs,h])

theorem mem_rdropWhile {l : List JString} {p : JString} (hp : p ≠ []) :
    p ∈ l.rdropWhile List.isEmpty ↔ p ∈ l := by
  induction l using List.reverseRecOn with
  | nil => simp
  | append_singleton l x ih =>
    by_cases hx : x.isEmpty
    · rw [List.rdropWhile_concat_pos _ _ _ hx,ih]
      have hpx : p ≠ x := by
        rintro rfl
        exact hp (List.isEmpty_iff.mp hx)
      simp [hpx]
    · rw [List.rdropWhile_concat_neg _ _ _ hx]

theorem mem_split {sep : Char} {s p : JString} (hp : p ≠ []) : p ∈ split sep s ↔ p ∈ s.splitOn sep := by
  unfold split
  by_cases h : sep ∈ s
  · rw [if_pos h,mem_rdropWhile hp]
  · rw [if_neg h,List.splitOn_eq_singleton h]

theorem not_mem_of_mem_split {sep : Char} {s p : JString} (h : p ∈ split sep s) : sep ∉ p := by
  by_cases hp : p = []
  · simp [hp]
  · exact not_mem_of_mem_splitOn ((mem_split hp).mp h)

theorem split_append_cons {sep : Char} {a b : JString} (ha : sep ∉ a) (hb : sep ∉ b) (hne : b ≠ []) :
    split sep (a ++ sep::b) = [a,b] := by
  rw [split,if_pos (by simp),List.splitOn_append_cons_self,List.splitOn_eq_singleton ha,
    List.splitOn_eq_singleton hb,List.rdropWhile_concat_neg _ _ _ (by simpa using hne)]
  rfl

theorem split_intercalate {sep : Char} {l : List JString} (hl : l ≠ []) (hsep : ∀ s ∈ l, sep ∉ s)
    (hne : ∀ s ∈ l, s ≠ []) : split sep ([sep].intercalate l) = l := by
  have hpieces : ([sep].intercalate l).splitOn sep = l := List.splitOn_intercalate sep hsep hl
  by_cases hmem : sep ∈ [sep].intercalate l
  · have hlast : ¬ List.isEmpty (l.getLast hl) = true := by
      simpa using hne _ (List.getLast_mem hl)
    rw [split,if_pos hmem,hpieces,List.rdropWhile_eq_self_iff]
    exact fun _ => hlast
  · rw [split,if_neg hmem,← List.splitOn_eq_singleton hmem,hpieces]

def decimal (n : ℤ) : JString :=
  if n < 0 then '-'::Nat.toDigits 10 n.natAbs else Nat.toDigits 10 n.natAbs

def digits (ds : JString) : Option ℕ :=
  if ds ≠ [] ∧ ds.all Char.isDigit then some (Nat.ofDigitChars 10 ds 0) else none

/-- `Integer.valueOf` and `Long.valueOf` for 32 and 64 bits; `none` is the
`NumberFormatException`. The other decimal digits that Java reads are written by nobody. -/
def parse (bits : ℕ) (s : JString) : Option ℤ :=
  (match s with
  | '-'::ds => (digits ds).map fun n => -(n : ℤ)
  | '+'::ds => (digits ds).map fun n => (n : ℤ)
  | ds => (digits ds).map fun n => (n : ℤ)).filter fun n => -2^(bits-1) ≤ n ∧ n < 2^(bits-1)

/-- What a sum of two numbers of this width is. -/
def wrap (bits : ℕ) (n : ℤ) : ℤ := n.bmod (2^bits)

theorem isDigit_of_mem_toDigits {n : ℕ} {c : Char} (h : c ∈ Nat.toDigits 10 n) : c.isDigit :=
  Nat.isDigit_of_mem_toDigits (by decide) (by decide) h

theorem digits_toDigits (n : ℕ) : digits (Nat.toDigits 10 n) = some n := by
  have hdigit : (Nat.toDigits 10 n).all Char.isDigit := by
    rw [List.all_eq_true]
    exact fun c => isDigit_of_mem_toDigits
  simp only [digits,hdigit,Nat.toDigits_ne_nil,ne_eq,not_false_eq_true,and_self,if_true,
    Nat.ofDigitChars_ten_toDigits]

theorem decimal_natCast (n : ℕ) : decimal n = Nat.toDigits 10 n := by
  simp [decimal]

theorem dash_not_mem_toDigits (n : ℕ) : '-' ∉ Nat.toDigits 10 n := by
  intro h
  have hdigit := isDigit_of_mem_toDigits h
  simp at hdigit

theorem dash_not_mem_decimal (n : ℕ) : '-' ∉ decimal n := by
  rw [decimal_natCast]
  exact dash_not_mem_toDigits n

theorem parse_decimal_eq (bits : ℕ) (n : ℤ) :
    parse bits (decimal n) = (some n).filter fun n => -2^(bits-1) ≤ n ∧ n < 2^(bits-1) := by
  have hdigits := digits_toDigits n.natAbs
  by_cases hneg : n < 0
  · have habs : -(n.natAbs : ℤ) = n := by omega
    rw [decimal,if_pos hneg]
    simp only [parse,hdigits]
    exact congrArg (fun n => (some n).filter _) habs
  · have habs : (n.natAbs : ℤ) = n := by omega
    have hdigit : ∀ c ∈ Nat.toDigits 10 n.natAbs, c.isDigit := fun c => isDigit_of_mem_toDigits
    rw [decimal,if_neg hneg]
    unfold parse
    split
    · rename_i ds hds
      have hdash := hdigit '-' (by simp [hds])
      simp at hdash
    · rename_i ds hds
      have hplus := hdigit '+' (by simp [hds])
      simp at hplus
    · rw [hdigits]
      exact congrArg (fun n => (some n).filter _) habs

theorem parse_decimal {bits : ℕ} {n : ℤ} (h : -2^(bits-1) ≤ n ∧ n < 2^(bits-1)) :
    parse bits (decimal n) = some n := by
  rw [parse_decimal_eq]
  exact Option.filter_eq_some_iff.mpr ⟨rfl,decide_eq_true h⟩

theorem eq_of_parse_decimal {bits : ℕ} {n m : ℤ} (h : parse bits (decimal n) = some m) : m = n := by
  rw [parse_decimal_eq] at h
  exact (Option.some.inj (Option.filter_eq_some_iff.mp h).1).symm

theorem parse_range {bits : ℕ} {s : JString} {n : ℤ} (h : parse bits s = some n) :
    -2^(bits-1) ≤ n ∧ n < 2^(bits-1) := by
  unfold parse at h
  exact of_decide_eq_true (Option.filter_eq_some_iff.mp h).2

theorem decimal_ne_nil (n : ℤ) : decimal n ≠ [] := by
  rw [decimal]
  split <;> simp

theorem not_mem_decimal {c : Char} (hdash : c ≠ '-') (hdigit : c.isDigit = false) (n : ℤ) : c ∉ decimal n := by
  have hdigits : c ∉ Nat.toDigits 10 n.natAbs := fun h => by simp [isDigit_of_mem_toDigits h] at hdigit
  rw [decimal]
  split
  · simp [hdash,hdigits]
  · exact hdigits

theorem not_mem_of_digits {c : Char} (hdigit : c.isDigit = false) {ds : JString} {n : ℕ}
    (h : digits ds = some n) : c ∉ ds := by
  intro hc
  rw [digits] at h
  split at h
  · rename_i hds
    have hall := List.all_eq_true.mp hds.2 c hc
    simp [hdigit] at hall
  · simp at h

theorem not_mem_of_parse {c : Char} (hdigit : c.isDigit = false) (hdash : c ≠ '-') (hplus : c ≠ '+')
    {bits : ℕ} {s : JString} {n : ℤ} (h : parse bits s = some n) : c ∉ s := by
  have hdigits {ds : JString} {f : ℤ → ℤ} (h : ((digits ds).bind fun k => some (f k)) = some n) : c ∉ ds := by
    obtain ⟨k,hk,_⟩ := Option.bind_eq_some_iff.mp h
    exact not_mem_of_digits hdigit hk
  unfold parse at h
  split at h
  · obtain ⟨hmap,-⟩ := Option.filter_eq_some_iff.mp h
    simpa [hdash] using hdigits (f:=fun k => -k) (by simpa using hmap)
  · obtain ⟨hmap,-⟩ := Option.filter_eq_some_iff.mp h
    simpa [hplus] using hdigits (f:=fun k => k) (by simpa using hmap)
  · obtain ⟨hmap,-⟩ := Option.filter_eq_some_iff.mp h
    exact hdigits (f:=fun k => k) (by simpa using hmap)

theorem decimal_injective {m n : ℕ} (h : decimal m = decimal n) : m = n := by
  rw [decimal_natCast,decimal_natCast] at h
  have hdigits := digits_toDigits m
  rw [h,digits_toDigits] at hdigits
  exact (Option.some.inj hdigits).symm

/-- The last occurrence of a character splits a string in one way. -/
theorem append_cons_inj {c : Char} {a b x y : JString} (hx : c ∉ x) (hy : c ∉ y)
    (h : a ++ c::x = b ++ c::y) : a = b ∧ x = y := by
  rcases List.append_eq_append_iff.mp h with ⟨d,rfl,hd⟩ | ⟨d,rfl,hd⟩
  · cases d with
    | nil => simpa using hd
    | cons e d =>
      have hmem : c ∈ x := by simp [(List.cons.inj hd).2]
      exact absurd hmem hx
  · cases d with
    | nil => simpa [eq_comm] using hd
    | cons e d =>
      have hmem : c ∈ y := by simp [(List.cons.inj hd).2]
      exact absurd hmem hy

theorem wrap_eq_self {bits : ℕ} {n : ℤ} (h : -2^bits ≤ n ∧ n < 2^bits) : wrap (bits+1) n = n := by
  have hpow : ((2^(bits+1) : ℕ) : ℤ) = 2^bits * 2 := by
    rw [Int.natCast_pow,Int.pow_succ]
    rfl
  refine Int.bmod_eq_of_le_mul_two ?_ ?_ <;> rw [hpow] <;> omega

theorem wrap_range (bits : ℕ) (n : ℤ) : -2^bits ≤ wrap (bits+1) n ∧ wrap (bits+1) n < 2^bits := by
  have hpow : ((2^(bits+1) : ℕ) : ℤ) = 2^bits * 2 := by
    rw [Int.natCast_pow,Int.pow_succ]
    rfl
  have hpos : 0 < 2^(bits+1) := Nat.two_pow_pos _
  have hle := @Int.le_bmod n _ hpos
  have hlt := @Int.bmod_lt n _ hpos
  rw [hpow] at hle hlt
  unfold wrap
  constructor <;> omega

theorem wrap_add_one (bits : ℕ) (n : ℤ) : wrap bits (wrap bits n + 1) = wrap bits (n+1) := Int.bmod_add_bmod

end JavaText
