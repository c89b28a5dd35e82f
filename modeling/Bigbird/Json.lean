import Mathlib

/-! JSON texts as sequences of the code units of a string: a parser, and the grammar of what it
accepts. -/
namespace JsonText

abbrev Text := List UInt16

/-- The code units of a string of ASCII characters. -/
def units (s : String) : Text := s.toList.map fun c => c.toNat.toUInt16

section Strings

def hexDigit (c : UInt16) : Option UInt16 :=
  if 48 ≤ c ∧ c ≤ 57 then some (c-48)
  else if 97 ≤ c ∧ c ≤ 102 then some (c-87)
  else if 65 ≤ c ∧ c ≤ 70 then some (c-55)
  else none

def hex4 (a b c d : UInt16) : Option UInt16 := do
  return ((16*(← hexDigit a) + (← hexDigit b))*16 + (← hexDigit c))*16 + (← hexDigit d)

def escape : UInt16 → Option UInt16
  | 34 => some 34
  | 92 => some 92
  | 47 => some 47
  | 98 => some 8
  | 102 => some 12
  | 110 => some 10
  | 114 => some 13
  | 116 => some 9
  | _ => none

/-- The characters of a string up to its closing quote, and what is left of the text. -/
def chars : Text → Option (Text × Text)
  | [] => none
  | 34::i => some ([],i)
  | 92::117::a::b::c::d::i => do
    let u ← hex4 a b c d
    let (s,i) ← chars i
    return (u::s,i)
  | 92::e::i => do
    let u ← escape e
    let (s,i) ← chars i
    return (u::s,i)
  | c::i => if c < 32 ∨ c = 92 then none else do
    let (s,i) ← chars i
    return (c::s,i)

/-- A string that stands for itself between quotes. -/
def Clean (s : Text) : Prop := ∀ c ∈ s, 32 ≤ c ∧ c ≠ 34 ∧ c ≠ 92

instance (s : Text) : Decidable (Clean s) := by
  unfold Clean
  infer_instance

variable {i r s : Text}

theorem chars_clean (hs : Clean s) (r : Text) : chars (s ++ 34::r) = some (s,r) := by
  induction s with
  | nil => rw [List.nil_append,chars]
  | cons c s ih =>
    obtain ⟨⟨hcontrol,hquote,hbackslash⟩,hs⟩ := List.forall_mem_cons.mp hs
    have hplain : ¬ (c < 32 ∨ c = 92) := by
      rintro (h | h)
      · exact absurd h (UInt16.not_lt.mpr hcontrol)
      · exact hbackslash h
    rw [List.cons_append,chars,if_neg hplain,ih hs]
    · rfl
    · exact hquote
    · exact fun _ _ _ _ _ h => absurd h hbackslash
    · exact fun _ _ h => absurd h hbackslash

/-- A string is written in front of its closing quote, either as it is or with more characters. -/
theorem of_chars (h : chars i = some (s,r)) : ∃ u, i = u ++ 34::r ∧ (u = s ∧ Clean s ∨ s.length < u.length) := by
  induction i using chars.induct generalizing s with
  | case1 => simp [chars] at h
  | case2 i =>
    rw [chars] at h
    cases h
    exact ⟨[],rfl,Or.inl ⟨rfl,by simp [Clean]⟩⟩
  | case3 a b c d i ih =>
    rw [chars] at h
    obtain ⟨u,_,h⟩ := Option.bind_eq_some_iff.mp h
    obtain ⟨⟨s',r'⟩,hi,h⟩ := Option.bind_eq_some_iff.mp h
    cases h
    obtain ⟨v,rfl,hv⟩ := ih hi
    refine ⟨92::117::a::b::c::d::v,rfl,Or.inr ?_⟩
    rcases hv with ⟨rfl,_⟩ | hlt <;> simp only [List.length_cons] <;> omega
  | case4 e i hu ih =>
    rw [chars] at h
    · obtain ⟨u,_,h⟩ := Option.bind_eq_some_iff.mp h
      obtain ⟨⟨s',r'⟩,hi,h⟩ := Option.bind_eq_some_iff.mp h
      cases h
      obtain ⟨v,rfl,hv⟩ := ih hi
      refine ⟨92::e::v,rfl,Or.inr ?_⟩
      rcases hv with ⟨rfl,_⟩ | hlt <;> simp only [List.length_cons] <;> omega
    · exact hu
  | case5 c i hquote hu he hbad =>
    rw [chars,if_pos hbad] at h
    · cases h
    · exact hquote
    · exact hu
    · exact he
  | case6 c i hquote hu he hplain ih =>
    rw [chars,if_neg hplain] at h
    · obtain ⟨⟨s',r'⟩,hi,h⟩ := Option.bind_eq_some_iff.mp h
      cases h
      obtain ⟨v,rfl,hv⟩ := ih hi
      obtain ⟨hcontrol,hbackslash⟩ := not_or.mp hplain
      refine ⟨c::v,rfl,?_⟩
      rcases hv with ⟨rfl,hclean⟩ | hlt
      · exact Or.inl ⟨rfl,List.forall_mem_cons.mpr ⟨⟨UInt16.not_lt.mp hcontrol,hquote,hbackslash⟩,hclean⟩⟩
      · exact Or.inr (by simpa using hlt)
    · exact hquote
    · exact hu
    · exact he

theorem chars_length (h : chars i = some (s,r)) : s.length + r.length + 1 ≤ i.length := by
  obtain ⟨u,rfl,⟨rfl,_⟩ | hlt⟩ := of_chars h <;> simp only [List.length_append,List.length_cons] <;> omega

/-- What is read of a quoted string is the string itself or something shorter. -/
theorem chars_quoted {t : Text} (hr : 34 ∉ r) (h : chars (s ++ 34::r) = some (t,i)) :
    t = s ∧ Clean s ∧ i = r ∨ t.length < s.length ∧ i.length ≤ s.length + r.length := by
  obtain ⟨u,hu,ht⟩ := of_chars h
  have hsame (hus : u = s) (hir : i = r) :
      t = s ∧ Clean s ∧ i = r ∨ t.length < s.length ∧ i.length ≤ s.length + r.length := by
    subst hus hir
    rcases ht with ⟨rfl,hclean⟩ | hlt
    · exact Or.inl ⟨rfl,hclean,rfl⟩
    · exact Or.inr ⟨hlt,by omega⟩
  rcases List.append_eq_append_iff.mp hu with ⟨v,rfl,hv⟩ | ⟨v,rfl,hv⟩
  · cases v with
    | nil => exact hsame (by simp) (List.cons.inj hv).2.symm
    | cons c v =>
      have hmem : 34 ∈ r := by simp [(List.cons.inj hv).2]
      exact absurd hmem hr
  · cases v with
    | nil => exact hsame (by simp) (List.cons.inj hv).2
    | cons c v =>
      have hi : i = v ++ 34::r := (List.cons.inj hv).2
      have hle : t.length ≤ u.length := by
        rcases ht with ⟨rfl,_⟩ | hlt <;> omega
      refine Or.inr ⟨?_,?_⟩ <;> simp only [hi,List.length_append,List.length_cons] <;> omega

end Strings

section Values

/-- A value; a number is kept as it is written, and an object with all its members. -/
inductive Json
  | null
  | bool (b : Bool)
  | num (literal : Text)
  | str (s : Text)
  | arr (elements : List Json)
  | obj (members : List (Text × Json))

def isSpace (c : UInt16) : Bool := c = 32 ∨ c = 9 ∨ c = 10 ∨ c = 13

def skip (i : Text) : Text := i.dropWhile isSpace

def isDigit (c : UInt16) : Bool := 48 ≤ c ∧ c ≤ 57

def digits (i : Text) : Option (Text × Text) :=
  if i.takeWhile isDigit = [] then none else some (i.takeWhile isDigit,i.dropWhile isDigit)

def minus : Text → Text × Text
  | 45::i => ([45],i)
  | i => ([],i)

def sign : Text → Text × Text
  | 43::i => ([43],i)
  | i => minus i

def integer : Text → Option (Text × Text)
  | 48::i => some ([48],i)
  | i => digits i

def fraction : Text → Option (Text × Text)
  | 46::i => (digits i).map fun (ds,i) => (46::ds,i)
  | i => some ([],i)

def exponent : Text → Option (Text × Text)
  | c::i => if c = 101 ∨ c = 69 then (digits (sign i).2).map fun (ds,j) => (c::(sign i).1 ++ ds,j) else some ([],c::i)
  | [] => some ([],[])

def number (i : Text) : Option (Json × Text) := do
  let (ds,j) ← integer (minus i).2
  let (fs,j) ← fraction j
  let (es,j) ← exponent j
  return (.num ((minus i).1 ++ ds ++ fs ++ es),j)

def words : List (Text × Json) := [(units "null",.null),(units "true",.bool true),(units "false",.bool false)]

def word (i : Text) : Option (Json × Text) :=
  words.findSome? fun (w,v) => (i.dropPrefix? w).map fun j => (v,j)

def literal (i : Text) : Option (Json × Text) := (word i).or (number i)

/-- One of the things that the grammar has rules for. -/
inductive Item
  | value (v : Json)
  | elements (vs : List Json)
  | members (ms : List (Text × Json))

/-- The text starts with this item, and the second text is what is left. Elements and members come
with the bracket that closes them. -/
inductive Reads : Item → Text → Text → Prop
  | str {s i r : Text} : chars i = some (s,r) → Reads (.value (.str s)) (34::i) r
  | literal {v : Json} {i r : Text} : literal i = some (v,r) → Reads (.value v) i r
  | emptyArr {i r : Text} : skip i = 93::r → Reads (.value (.arr [])) (91::i) r
  | arr {vs : List Json} {i r : Text} : Reads (.elements vs) (skip i) r → Reads (.value (.arr vs)) (91::i) r
  | emptyObj {i r : Text} : skip i = 125::r → Reads (.value (.obj [])) (123::i) r
  | obj {ms : List (Text × Json)} {i r : Text} :
      Reads (.members ms) (skip i) r → Reads (.value (.obj ms)) (123::i) r
  | lastElement {v : Json} {i j r : Text} : Reads (.value v) i j → skip j = 93::r → Reads (.elements [v]) i r
  | element {v : Json} {vs : List Json} {i j k r : Text} : Reads (.value v) i j → skip j = 44::k →
      Reads (.elements vs) (skip k) r → Reads (.elements (v::vs)) i r
  | lastMember {key : Text} {v : Json} {i j k l r : Text} : chars i = some (key,j) → skip j = 58::k →
      Reads (.value v) (skip k) l → skip l = 125::r → Reads (.members [(key,v)]) (34::i) r
  | member {key : Text} {v : Json} {ms : List (Text × Json)} {i j k l m r : Text} : chars i = some (key,j) →
      skip j = 58::k → Reads (.value v) (skip k) l → skip l = 44::m → Reads (.members ms) (skip m) r →
      Reads (.members ((key,v)::ms)) (34::i) r

mutual

/-- The value that a text starts with; the number bounds the steps, twice the length of the text
is enough. -/
def value : ℕ → Text → Option (Json × Text)
  | 0, _ => none
  | n+1, i => match i with
    | 34::i => (chars i).map fun (s,r) => (.str s,r)
    | 91::i => match skip i with
      | 93::r => some (.arr [],r)
      | i => (elements n i).map fun (vs,r) => (.arr vs,r)
    | 123::i => match skip i with
      | 125::r => some (.obj [],r)
      | i => (members n i).map fun (ms,r) => (.obj ms,r)
    | i => literal i

def elements : ℕ → Text → Option (List Json × Text)
  | 0, _ => none
  | n+1, i => do
    let (v,j) ← value n i
    match skip j with
    | 93::r => return ([v],r)
    | 44::k => do
      let (vs,r) ← elements n (skip k)
      return (v::vs,r)
    | _ => none

def members : ℕ → Text → Option (List (Text × Json) × Text)
  | 0, _ => none
  | n+1, i => match i with
    | 34::i => do
      let (key,j) ← chars i
      match skip j with
      | 58::k => do
        let (v,l) ← value n (skip k)
        match skip l with
        | 125::r => return ([(key,v)],r)
        | 44::m => do
          let (ms,r) ← members n (skip m)
          return ((key,v)::ms,r)
        | _ => none
      | _ => none
    | _ => none

end

/-- The value of a text that is nothing but a value between spaces. -/
def parse (i : Text) : Option Json :=
  match value (2*i.length) (skip i) with
  | some (v,r) => if skip r = [] then some v else none
  | none => none

end Values

section Lengths

variable {i j r : Text} {v : Json}

theorem skip_length (i : Text) : (skip i).length ≤ i.length := (List.dropWhile_suffix _).length_le

theorem digits_length {ds : Text} (h : digits i = some (ds,r)) : r.length < i.length := by
  rw [digits] at h
  split at h
  · cases h
  · rename_i hne
    cases h
    have hlength := congrArg List.length (List.takeWhile_append_dropWhile (p:=isDigit) (l:=i))
    have hpos : 0 < (i.takeWhile isDigit).length := List.length_pos_of_ne_nil hne
    rw [List.length_append] at hlength
    omega

theorem minus_length (i : Text) : (minus i).2.length ≤ i.length := by
  unfold minus
  split <;> simp

theorem sign_length (i : Text) : (sign i).2.length ≤ i.length := by
  unfold sign
  split
  · simp
  · exact minus_length _

theorem integer_length {ds : Text} (h : integer i = some (ds,r)) : r.length < i.length := by
  unfold integer at h
  split at h
  · cases h
    simp
  · exact digits_length h

theorem fraction_length {ds : Text} (h : fraction i = some (ds,r)) : r.length ≤ i.length := by
  unfold fraction at h
  split at h
  · obtain ⟨⟨ds',r'⟩,hdigits,h⟩ := Option.map_eq_some_iff.mp h
    cases h
    exact (digits_length hdigits).le.trans (Nat.le_succ _)
  · cases h
    exact le_rfl

theorem exponent_length {ds : Text} (h : exponent i = some (ds,r)) : r.length ≤ i.length := by
  unfold exponent at h
  split at h
  · split at h
    · obtain ⟨⟨ds',r'⟩,hdigits,h⟩ := Option.map_eq_some_iff.mp h
      cases h
      exact ((digits_length hdigits).le.trans (sign_length _)).trans (Nat.le_succ _)
    · cases h
      exact le_rfl
  · cases h
    exact le_rfl

theorem number_length (h : number i = some (v,r)) : r.length < i.length := by
  obtain ⟨⟨ds,j⟩,hinteger,h⟩ := Option.bind_eq_some_iff.mp h
  obtain ⟨⟨fs,k⟩,hfraction,h⟩ := Option.bind_eq_some_iff.mp h
  obtain ⟨⟨es,l⟩,hexponent,h⟩ := Option.bind_eq_some_iff.mp h
  cases h
  have hminus := minus_length i
  have hj := integer_length hinteger
  have hk := fraction_length hfraction
  have hl := exponent_length hexponent
  omega

theorem word_length (h : word i = some (v,r)) : r.length < i.length := by
  obtain ⟨⟨w,v'⟩,hmem,h⟩ := List.exists_of_findSome?_eq_some h
  obtain ⟨j,hj,h⟩ := Option.map_eq_some_iff.mp h
  cases h
  obtain ⟨w',rfl,hw⟩ := List.dropPrefix?_eq_some_iff.mp hj
  have hpos : 0 < w.length := by
    simp only [words,List.mem_cons,Prod.mk.injEq,List.not_mem_nil,or_false] at hmem
    rcases hmem with ⟨rfl,_⟩ | ⟨rfl,_⟩ | ⟨rfl,_⟩ <;> decide
  rw [← eq_of_beq hw] at hpos
  rw [List.length_append]
  omega

theorem literal_length (h : literal i = some (v,r)) : r.length < i.length := by
  rcases Option.or_eq_some_iff.mp h with h | ⟨_,h⟩
  · exact word_length h
  · exact number_length h

theorem literal_eq_none {c : UInt16} (hc : c = 34 ∨ c = 91 ∨ c = 93 ∨ c = 123) (i : Text) : literal (c::i) = none := by
  rcases hc with rfl | rfl | rfl | rfl <;> rfl

end Lengths

section Grammar

variable {i j r : Text} {v : Json} {n : ℕ} {item : Item}

theorem length_of_skip {c : UInt16} (h : skip i = c::j) : j.length < i.length := by
  have hskip := skip_length i
  rw [h,List.length_cons] at hskip
  exact hskip

theorem Reads.length_lt (h : Reads item i r) : r.length < i.length := by
  induction h with
  | str h =>
    have hlength := chars_length h
    rw [List.length_cons]
    omega
  | literal h => exact literal_length h
  | emptyArr h | emptyObj h =>
    have hskip := length_of_skip h
    rw [List.length_cons]
    omega
  | @arr _ i _ _ ih | @obj _ i _ _ ih =>
    have hskip := skip_length i
    rw [List.length_cons]
    omega
  | lastElement _ hj ih =>
    have hskip := length_of_skip hj
    omega
  | @element v vs i j k r _ hj _ ih ih' =>
    have hskip := length_of_skip hj
    have hskip' := skip_length k
    omega
  | @lastMember key v i j k l r hchars hj _ hl ih =>
    have hlength := chars_length hchars
    have hcolon := length_of_skip hj
    have hskip := skip_length k
    have hclose := length_of_skip hl
    rw [List.length_cons]
    omega
  | @member key v ms i j k l m r hchars hj _ hl _ ih ih' =>
    have hlength := chars_length hchars
    have hcolon := length_of_skip hj
    have hskip := skip_length k
    have hcomma := length_of_skip hl
    have hskip' := skip_length m
    rw [List.length_cons]
    omega

def Parses (n : ℕ) (item : Item) (i r : Text) : Prop :=
  match item with
  | .value v => value n i = some (v,r)
  | .elements vs => elements n i = some (vs,r)
  | .members ms => members n i = some (ms,r)

theorem reads_of_parses (h : Parses n item i r) : Reads item i r := by
  induction n generalizing item i r with
  | zero => cases item <;> simp [Parses,value,elements,members] at h
  | succ n ih =>
    cases item with
    | value v =>
      change value (n+1) i = some (v,r) at h
      unfold value at h
      split at h
      · obtain ⟨⟨s,r'⟩,hchars,h⟩ := Option.map_eq_some_iff.mp h
        cases h
        exact .str hchars
      · split at h
        · rename_i hskip
          cases h
          exact .emptyArr hskip
        · obtain ⟨⟨vs,r'⟩,hvs,h⟩ := Option.map_eq_some_iff.mp h
          cases h
          exact .arr (ih (show Parses n (.elements vs) _ _ from hvs))
      · split at h
        · rename_i hskip
          cases h
          exact .emptyObj hskip
        · obtain ⟨⟨ms,r'⟩,hms,h⟩ := Option.map_eq_some_iff.mp h
          cases h
          exact .obj (ih (show Parses n (.members ms) _ _ from hms))
      · exact .literal h
    | elements vs =>
      change elements (n+1) i = some (vs,r) at h
      unfold elements at h
      obtain ⟨⟨v,j⟩,hv,h⟩ := Option.bind_eq_some_iff.mp h
      have hread := ih (show Parses n (.value v) _ _ from hv)
      dsimp only at h
      split at h
      · rename_i hskip
        cases h
        exact .lastElement hread hskip
      · rename_i k hskip
        obtain ⟨⟨vs',r'⟩,hvs,h⟩ := Option.bind_eq_some_iff.mp h
        cases h
        exact .element hread hskip (ih (show Parses n (.elements vs') _ _ from hvs))
      · cases h
    | members ms =>
      change members (n+1) i = some (ms,r) at h
      unfold members at h
      split at h
      · obtain ⟨⟨key,j⟩,hchars,h⟩ := Option.bind_eq_some_iff.mp h
        dsimp only at h
        split at h
        · rename_i k hcolon
          obtain ⟨⟨v,l⟩,hv,h⟩ := Option.bind_eq_some_iff.mp h
          have hread := ih (show Parses n (.value v) _ _ from hv)
          dsimp only at h
          split at h
          · rename_i hskip
            cases h
            exact .lastMember hchars hcolon hread hskip
          · rename_i m hskip
            obtain ⟨⟨ms',r'⟩,hms,h⟩ := Option.bind_eq_some_iff.mp h
            cases h
            exact .member hchars hcolon hread hskip (ih (show Parses n (.members ms') _ _ from hms))
          · cases h
        · cases h
      · cases h

theorem value_eq_literal (h : literal i = some (v,r)) (n : ℕ) : value (n+1) i = literal i := by
  unfold value
  split
  · rw [literal_eq_none (by decide)] at h
    cases h
  · rw [literal_eq_none (by decide)] at h
    cases h
  · rw [literal_eq_none (by decide)] at h
    cases h
  · rfl

theorem not_reads_elements {vs : List Json} : ¬ Reads (.elements vs) (93::i) r := by
  have hvalue {v : Json} {j : Text} : ¬ Reads (.value v) (93::i) j := by
    intro h
    cases h with
    | literal h =>
      rw [literal_eq_none (by decide)] at h
      cases h
  intro h
  cases h with
  | lastElement h _ => exact hvalue h
  | element h _ _ => exact hvalue h

/-- The steps that are enough for an item; those that a value takes belong to the first element, too. -/
def Item.steps (i : Text) : Item → ℕ
  | .elements _ => 2*i.length+1
  | _ => 2*i.length

theorem Reads.exists_succ (h : Reads item i r) (hn : item.steps i ≤ n) : ∃ m, n = m+1 := by
  have hlength := h.length_lt
  have hsteps : 2*i.length ≤ item.steps i := by
    cases item <;> simp only [Item.steps] <;> omega
  exact Nat.exists_eq_add_one_of_ne_zero (by omega)

theorem parses_of_reads (h : Reads item i r) (hn : item.steps i ≤ n) : Parses n item i r := by
  induction h generalizing n with
  | @str s i r h =>
    obtain ⟨n,rfl⟩ := (Reads.str h).exists_succ hn
    change value (n+1) (34::i) = _
    rw [value,h]
    rfl
  | @literal v i r h =>
    obtain ⟨n,rfl⟩ := (Reads.literal h).exists_succ hn
    exact (value_eq_literal h n).trans h
  | @emptyArr i r h =>
    obtain ⟨n,rfl⟩ := (Reads.emptyArr h).exists_succ hn
    simp only [Parses,value,h]
  | @arr vs i r h ih =>
    obtain ⟨n,rfl⟩ := (Reads.arr h).exists_succ hn
    have hskip := skip_length i
    simp only [Item.steps,List.length_cons] at hn ih
    have hvs : elements n (skip i) = some (vs,r) := ih (by omega)
    simp only [Parses,value]
    split
    · rename_i hclose
      rw [hclose] at h
      exact absurd h not_reads_elements
    · rw [hvs]
      rfl
  | @emptyObj i r h =>
    obtain ⟨n,rfl⟩ := (Reads.emptyObj h).exists_succ hn
    simp only [Parses,value,h]
  | @obj ms i r h ih =>
    obtain ⟨n,rfl⟩ := (Reads.obj h).exists_succ hn
    have hskip := skip_length i
    simp only [Item.steps,List.length_cons] at hn ih
    have hms : members n (skip i) = some (ms,r) := ih (by omega)
    simp only [Parses,value]
    split
    · rename_i hclose
      rw [hclose] at h
      cases h
    · rw [hms]
      rfl
  | @lastElement v i j r h hj ih =>
    obtain ⟨n,rfl⟩ := (Reads.lastElement h hj).exists_succ hn
    simp only [Item.steps] at hn ih
    have hv : value n i = some (v,j) := ih (by omega)
    simp [Parses,elements,hv,hj]
  | @element v vs i j k r h hj h' ih ih' =>
    obtain ⟨n,rfl⟩ := (Reads.element h hj h').exists_succ hn
    have hlength := h.length_lt
    have hcomma := length_of_skip hj
    have hskip := skip_length k
    simp only [Item.steps] at hn ih ih'
    have hv : value n i = some (v,j) := ih (by omega)
    have hvs : elements n (skip k) = some (vs,r) := ih' (by omega)
    simp [Parses,elements,hv,hj,hvs]
  | @lastMember key v i j k l r hchars hj h hl ih =>
    obtain ⟨n,rfl⟩ := (Reads.lastMember hchars hj h hl).exists_succ hn
    have hlength := chars_length hchars
    have hcolon := length_of_skip hj
    have hskip := skip_length k
    simp only [Item.steps,List.length_cons] at hn ih
    have hv : value n (skip k) = some (v,l) := ih (by omega)
    simp [Parses,members,hchars,hj,hv,hl]
  | @member key v ms i j k l m r hchars hj h hl h' ih ih' =>
    obtain ⟨n,rfl⟩ := (Reads.member hchars hj h hl h').exists_succ hn
    have hlength := chars_length hchars
    have hcolon := length_of_skip hj
    have hskip := skip_length k
    have hvalue := h.length_lt
    have hcomma := length_of_skip hl
    have hskip' := skip_length m
    simp only [Item.steps,List.length_cons] at hn ih ih'
    have hv : value n (skip k) = some (v,l) := ih (by omega)
    have hms : members n (skip m) = some (ms,r) := ih' (by omega)
    simp [Parses,members,hchars,hj,hv,hl,hms]

/-- The parser accepts what the grammar derives, and nothing else. -/
theorem parse_eq_some_iff : parse i = some v ↔ ∃ r, Reads (.value v) (skip i) r ∧ skip r = [] := by
  rw [parse]
  constructor
  · intro h
    split at h
    · rename_i v' r hvalue
      split at h
      · rename_i hrest
        cases h
        exact ⟨r,reads_of_parses (show Parses _ (.value v) _ _ from hvalue),hrest⟩
      · cases h
    · cases h
  · rintro ⟨r,hreads,hrest⟩
    have hskip := skip_length i
    have hvalue : value (2*i.length) (skip i) = some (v,r) := parses_of_reads hreads (by simp only [Item.steps]; omega)
    rw [hvalue]
    exact if_pos hrest

theorem literal_ne_str {s : Text} : literal i ≠ some (.str s,r) := by
  intro h
  rcases Option.or_eq_some_iff.mp h with h | ⟨_,h⟩
  · obtain ⟨⟨w,v⟩,hmem,h⟩ := List.exists_of_findSome?_eq_some h
    obtain ⟨j,_,h⟩ := Option.map_eq_some_iff.mp h
    cases h
    simp [words] at hmem
  · obtain ⟨_,_,h⟩ := Option.bind_eq_some_iff.mp h
    obtain ⟨_,_,h⟩ := Option.bind_eq_some_iff.mp h
    obtain ⟨_,_,h⟩ := Option.bind_eq_some_iff.mp h
    cases h

theorem Reads.chars_of_str {s : Text} (h : Reads (.value (.str s)) i r) : ∃ j, i = 34::j ∧ chars j = some (s,r) := by
  cases h with
  | str h => exact ⟨_,rfl,h⟩
  | literal h => exact absurd h literal_ne_str

theorem Reads.str_length {ms : List (Text × Json)} (h : Reads (.members ms) i r) {key s : Text}
    (hmem : (key,.str s) ∈ ms) : s.length + 3 ≤ i.length := by
  have hstr {k l : Text} (hread : Reads (.value (.str s)) (skip k) l) : s.length + 2 ≤ k.length := by
    obtain ⟨j,hj,hchars⟩ := hread.chars_of_str
    have hlength := chars_length hchars
    have hskip := length_of_skip hj
    omega
  generalize hitem : Item.members ms = item at h
  induction h generalizing ms with
  | lastMember hchars hj hread _ =>
    cases hitem
    have hlength := chars_length hchars
    have hcolon := length_of_skip hj
    rw [List.mem_singleton] at hmem
    cases hmem
    have hs := hstr hread
    rw [List.length_cons]
    omega
  | @member key' v ms' i j k l m r hchars hj hread hl _ _ ih =>
    cases hitem
    have hlength := chars_length hchars
    have hcolon := length_of_skip hj
    rw [List.length_cons]
    rcases List.mem_cons.mp hmem with heq | hmem
    · cases heq
      have hs := hstr hread
      omega
    · have hs := ih hmem rfl
      have hskip := skip_length k
      have hvalue := hread.length_lt
      have hcomma := length_of_skip hl
      have hskip' := skip_length m
      omega
  | _ => cases hitem

end Grammar

section Numbers

variable {i j ds r : Text}

def Stops (r : Text) : Prop := ∀ c ∈ r.head?, ¬ (isDigit c ∨ c = 46 ∨ c = 101 ∨ c = 69)

theorem Stops.ne {c : UInt16} (hr : Stops (c::r)) : isDigit c = false ∧ c ≠ 46 ∧ c ≠ 101 ∧ c ≠ 69 := by
  simpa [Stops] using hr

theorem Stops.span (hr : Stops r) (i : Text) :
    (i ++ r).takeWhile isDigit = i.takeWhile isDigit ∧ (i ++ r).dropWhile isDigit = i.dropWhile isDigit ++ r := by
  induction i with
  | nil =>
    cases r with
    | nil => exact ⟨rfl,rfl⟩
    | cons c r => simp [hr.ne.1]
  | cons c i ih =>
    cases hc : isDigit c with
    | true => simp [hc,ih]
    | false => simp [hc]

theorem digits_append (hr : Stops r) (h : digits i = some (ds,j)) : digits (i ++ r) = some (ds,j ++ r) := by
  rw [digits] at h
  split at h
  · cases h
  · rename_i hne
    cases h
    rw [digits,(hr.span i).1,(hr.span i).2,if_neg hne]

theorem integer_append (hr : Stops r) (h : integer i = some (ds,j)) : integer (i ++ r) = some (ds,j ++ r) := by
  unfold integer at h
  split at h
  · cases h
    rfl
  · rename_i hzero
    have hi : integer (i ++ r) = digits (i ++ r) := by
      cases i with
      | nil => cases h
      | cons c i =>
        rw [integer]
        exact fun k hk => hzero i (by rw [(List.cons.inj hk).1])
    rw [hi]
    exact digits_append hr h

theorem fraction_append (hr : Stops r) (h : fraction i = some (ds,j)) : fraction (i ++ r) = some (ds,j ++ r) := by
  unfold fraction at h
  split at h
  · obtain ⟨⟨ds',k⟩,hdigits,h⟩ := Option.map_eq_some_iff.mp h
    cases h
    rw [List.cons_append,fraction,digits_append hr hdigits]
    rfl
  · rename_i hpoint
    cases h
    cases i with
    | nil =>
      cases r with
      | nil => rfl
      | cons c r =>
        rw [List.nil_append,fraction]
        exact fun k hk => hr.ne.2.1 (List.cons.inj hk).1
    | cons c i =>
      rw [fraction]
      exact fun k hk => hpoint i (by rw [(List.cons.inj hk).1])

theorem sign_append (hi : i ≠ []) (r : Text) : sign (i ++ r) = ((sign i).1,(sign i).2 ++ r) := by
  obtain ⟨c,i,rfl⟩ := List.exists_cons_of_ne_nil hi
  rw [List.cons_append]
  unfold sign minus
  split <;> (try split) <;> simp_all

theorem minus_append (hi : i ≠ []) (r : Text) : minus (i ++ r) = ((minus i).1,(minus i).2 ++ r) := by
  obtain ⟨c,i,rfl⟩ := List.exists_cons_of_ne_nil hi
  rw [List.cons_append]
  unfold minus
  split <;> simp_all

theorem exponent_append (hr : Stops r) (h : exponent i = some (ds,j)) : exponent (i ++ r) = some (ds,j ++ r) := by
  cases i with
  | nil =>
    cases h
    cases r with
    | nil => rfl
    | cons c r =>
      have hletter : ¬ (c = 101 ∨ c = 69) := not_or.mpr hr.ne.2.2
      exact if_neg hletter
  | cons c i =>
    rw [exponent] at h
    rw [List.cons_append,exponent]
    split at h
    · rename_i hletter
      obtain ⟨⟨ds',k⟩,hdigits,h⟩ := Option.map_eq_some_iff.mp h
      cases h
      have hi : i ≠ [] := by
        rintro rfl
        cases hdigits
      rw [if_pos hletter,sign_append hi,digits_append hr hdigits]
      rfl
    · rename_i hletter
      cases h
      exact if_neg hletter

theorem number_append {v : Json} (hr : Stops r) (h : number i = some (v,j)) : number (i ++ r) = some (v,j ++ r) := by
  obtain ⟨⟨ds,k⟩,hinteger,h⟩ := Option.bind_eq_some_iff.mp h
  obtain ⟨⟨fs,l⟩,hfraction,h⟩ := Option.bind_eq_some_iff.mp h
  obtain ⟨⟨es,m⟩,hexponent,h⟩ := Option.bind_eq_some_iff.mp h
  cases h
  have hi : i ≠ [] := by
    rintro rfl
    cases hinteger
  simp [number,minus_append hi,integer_append hr hinteger,fraction_append hr hfraction,exponent_append hr hexponent]

end Numbers

section Writing

variable {i r t w : Text} {v : Json}

/-- The text of this value, in front of whatever cannot be taken for more of a number. -/
def Writes (t : Text) (v : Json) : Prop := ∀ r, Stops r → Reads (.value v) (t ++ r) r

def WritesMember (t : Text) (m : Text × Json) : Prop :=
  ∃ i, t = 34::i ∧ ∀ r, Stops r → ∃ j k, chars (i ++ r) = some (m.1,j) ∧ skip j = 58::k ∧ Reads (.value m.2) (skip k) r

def Spaces (w : Text) : Prop := ∀ c ∈ w, isSpace c

theorem skip_append (hw : Spaces w) (i : Text) : skip (w ++ i) = skip i := List.dropWhile_append_of_pos hw

theorem Reads.skip_eq (h : Reads (.value v) i r) : skip i = i := by
  cases h with
  | literal h =>
    cases i with
    | nil => rfl
    | cons c i =>
      cases hc : isSpace c with
      | false => simp [skip,hc]
      | true =>
        have hnone : JsonText.literal (c::i) = none := by
          simp only [isSpace,decide_eq_true_eq] at hc
          rcases hc with rfl | rfl | rfl | rfl <;> rfl
        rw [hnone] at h
        cases h
  | _ => rfl

theorem Reads.skip_members {ms : List (Text × Json)} (h : Reads (.members ms) i r) : skip i = i := by
  cases h <;> rfl

theorem Reads.skip_elements {vs : List Json} (h : Reads (.elements vs) i r) : skip i = i := by
  cases h with
  | lastElement hv _ => exact hv.skip_eq
  | element hv _ _ => exact hv.skip_eq

theorem word_append {s : String} {v : Json} (h : (units s,v) ∈ words) (r : Text) : word (units s ++ r) = some (v,r) := by
  have hnull : units "null" = [110,117,108,108] := rfl
  have htrue : units "true" = [116,114,117,101] := rfl
  have hfalse : units "false" = [102,97,108,115,101] := rfl
  simp only [words,List.mem_cons,Prod.mk.injEq,List.not_mem_nil,or_false] at h
  rcases h with ⟨hs,rfl⟩ | ⟨hs,rfl⟩ | ⟨hs,rfl⟩ <;> simp [hs,word,words,hnull,htrue,hfalse,List.dropPrefix?]

theorem writes_word {s : String} (h : (units s,v) ∈ words) : Writes (units s) v := by
  intro r _
  refine .literal ?_
  rw [literal,word_append h]
  rfl

theorem word_eq_none (h : number t = some (v,[])) (r : Text) : word (t ++ r) = none := by
  cases t with
  | nil => cases h
  | cons c i =>
    refine Option.eq_none_iff_forall_not_mem.mpr fun ⟨v',j⟩ hword => ?_
    obtain ⟨⟨w,v'⟩,hmem,hword⟩ := List.exists_of_findSome?_eq_some hword
    obtain ⟨j,hj,_⟩ := Option.map_eq_some_iff.mp hword
    obtain ⟨w',hi,hw⟩ := List.dropPrefix?_eq_some_iff.mp hj
    have hw : w' = w := eq_of_beq hw
    subst hw
    simp only [words,List.mem_cons,Prod.mk.injEq,List.not_mem_nil,or_false] at hmem
    rcases hmem with ⟨rfl,_⟩ | ⟨rfl,_⟩ | ⟨rfl,_⟩
    all_goals
      obtain rfl := (List.cons.inj hi).1
      cases h

theorem writes_number (h : number t = some (v,[])) : Writes t v := by
  intro r hr
  refine .literal ?_
  rw [literal,word_eq_none h,Option.none_or]
  exact number_append hr h

theorem reads_elements {ts : List Text} {vs : List Json} (hw : Spaces w) (h : List.Forall₂ Writes ts vs)
    (hne : ts ≠ []) (hi : Stops i) (hr : skip i = 93::r) : Reads (.elements vs) (List.intercalate (44::w) ts ++ i) r := by
  induction h with
  | nil => exact absurd rfl hne
  | @cons t v ts vs ht h ih =>
    cases h with
    | nil =>
      rw [List.intercalate_singleton]
      exact .lastElement (ht i hi) hr
    | @cons t' v' ts vs ht' h =>
      have hrest := ih (by simp)
      have hskip : skip (w ++ (List.intercalate (44::w) (t'::ts) ++ i)) = List.intercalate (44::w) (t'::ts) ++ i := by
        rw [skip_append hw]
        exact hrest.skip_elements
      rw [List.intercalate_cons_cons,List.append_assoc,List.append_assoc,List.cons_append]
      refine .element (ht _ ?_) rfl ?_
      · simp [Stops,isDigit]
      · rw [hskip]
        exact hrest

theorem reads_members {ts : List Text} {ms : List (Text × Json)} (hw : Spaces w) (h : List.Forall₂ WritesMember ts ms)
    (hne : ts ≠ []) (hi : Stops i) (hr : skip i = 125::r) : Reads (.members ms) (List.intercalate (44::w) ts ++ i) r := by
  induction h with
  | nil => exact absurd rfl hne
  | @cons t m ts ms ht h ih =>
    obtain ⟨t,rfl,ht⟩ := ht
    cases h with
    | nil =>
      obtain ⟨j,k,hchars,hcolon,hv⟩ := ht i hi
      rw [List.intercalate_singleton,List.cons_append]
      exact .lastMember hchars hcolon hv hr
    | @cons t' m' ts ms ht' h =>
      have hrest := ih (by simp)
      have hskip : skip (w ++ (List.intercalate (44::w) (t'::ts) ++ i)) = List.intercalate (44::w) (t'::ts) ++ i := by
        rw [skip_append hw]
        exact hrest.skip_members
      obtain ⟨j,k,hchars,hcolon,hv⟩ := ht (44::(w ++ (List.intercalate (44::w) (t'::ts) ++ i))) (by simp [Stops,isDigit])
      rw [List.intercalate_cons_cons,List.append_assoc,List.append_assoc,List.cons_append,List.cons_append]
      refine .member hchars hcolon hv rfl ?_
      rw [hskip]
      exact hrest

theorem Writes.parse_eq (h : Writes t v) : parse t = some v := by
  have hread := h [] (by simp [Stops])
  rw [List.append_nil] at hread
  rw [parse_eq_some_iff]
  exact ⟨[],by rwa [hread.skip_eq],rfl⟩

end Writing

end JsonText
