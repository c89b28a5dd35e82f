import Bigbird.Json

/-! How the login page writes values as texts: what its library makes of strings and of nested values,
and that the texts are read back. -/
namespace Bigbird
namespace Stringify

open JsonText

section Quote

/-- The characters that are not put into a string as they are. -/
def escapable (c : UInt16) : Bool :=
  c = 92 ∨ c = 34 ∨ c ≤ 0x1f ∨ 0x7f ≤ c ∧ c ≤ 0x9f ∨ c = 0xad ∨ 0x600 ≤ c ∧ c ≤ 0x604 ∨ c = 0x70f ∨ c = 0x17b4 ∨
    c = 0x17b5 ∨ 0x200c ≤ c ∧ c ≤ 0x200f ∨ 0x2028 ≤ c ∧ c ≤ 0x202f ∨ 0x2060 ≤ c ∧ c ≤ 0x206f ∨ c = 0xfeff ∨
    0xfff0 ≤ c ∧ c ≤ 0xffff

def substitution : UInt16 → Option Text
  | 8 => some (units "\\b")
  | 9 => some (units "\\t")
  | 10 => some (units "\\n")
  | 12 => some (units "\\f")
  | 13 => some (units "\\r")
  | 34 => some (units "\\\"")
  | 92 => some (units "\\\\")
  | _ => none

/-- A character code in hexadecimal, with zeros in front. -/
def hexCode (c : UInt16) : Text :=
  let t := units "0000" ++ (Nat.toDigits 16 c.toNat).map fun d => d.toNat.toUInt16
  t.drop (t.length-4)

def escaped (c : UInt16) : Text := (substitution c).getD (units "\\u" ++ hexCode c)

def quote (string : Text) : Text :=
  if string.any escapable then 34::(string.flatMap fun c => if escapable c then escaped c else [c]) ++ [34]
  else 34::string ++ [34]

def hexUnit (n : ℕ) : UInt16 := (Nat.digitChar n).toNat.toUInt16

theorem hexDigit_hexUnit {n : ℕ} (h : n < 16) : hexDigit (hexUnit n) = some n.toUInt16 := by
  interval_cases n <;> rfl

theorem hexCode_eq (c : UInt16) : hexCode c =
    [hexUnit (c.toNat/16/16/16),hexUnit (c.toNat/16/16%16),hexUnit (c.toNat/16%16),hexUnit (c.toNat%16)] := by
  have hc : c.toNat < 65536 := c.toNat_lt
  have hzeros : units "0000" = [hexUnit 0,hexUnit 0,hexUnit 0,hexUnit 0] := rfl
  have hlast {n : ℕ} (h : n < 16) : (Nat.toDigits 16 n).map (fun d => d.toNat.toUInt16) = [hexUnit n] := by
    rw [Nat.toDigits_of_lt_base h]
    rfl
  have hmore {n : ℕ} (h : ¬ n < 16) : (Nat.toDigits 16 n).map (fun d => d.toNat.toUInt16) =
      (Nat.toDigits 16 (n/16)).map (fun d => d.toNat.toUInt16) ++ [hexUnit (n%16)] := by
    rw [Nat.toDigits_of_base_le (by decide) (not_lt.mp h),List.map_append]
    rfl
  unfold hexCode
  rw [hzeros]
  generalize c.toNat = n at hc
  have hsmall {m : ℕ} (h : m < 16) : m%16 = m ∧ m/16 = 0 := ⟨Nat.mod_eq_of_lt h,Nat.div_eq_of_lt h⟩
  by_cases h1 : n < 16
  · simp [hlast h1,hsmall h1]
  by_cases h2 : n/16 < 16
  · simp [hmore h1,hlast h2,hsmall h2]
  by_cases h3 : n/16/16 < 16
  · simp [hmore h1,hmore h2,hlast h3,hsmall h3]
  · have h4 : n/16/16/16 < 16 := by omega
    simp [hmore h1,hmore h2,hmore h3,hlast h4]

theorem hex4_hexCode (c : UInt16) (i : Text) : ∃ a b d e, hexCode c ++ i = a::b::d::e::i ∧ hex4 a b d e = some c := by
  have hc : c.toNat < 65536 := c.toNat_lt
  refine ⟨_,_,_,_,by rw [hexCode_eq]; rfl,?_⟩
  have hmod (n : ℕ) : n%16 < 16 := Nat.mod_lt _ (by decide)
  have htop : c.toNat/16/16/16 < 16 := by omega
  simp only [hex4,hexDigit_hexUnit htop,hexDigit_hexUnit (hmod _)]
  have hvalue : ((16*(c.toNat/16/16/16) + c.toNat/16/16%16)*16 + c.toNat/16%16)*16 + c.toNat%16 = c.toNat := by omega
  have hcode := congrArg Nat.toUInt16 hvalue
  simpa using hcode

theorem escapable_eq_false {c : UInt16} (h : escapable c = false) : ¬ (c < 32 ∨ c = 92) ∧ c ≠ 34 := by
  simp only [escapable,decide_eq_false_iff_not,not_or] at h
  obtain ⟨hbackslash,hquote,hcontrol,_⟩ := h
  refine ⟨?_,hquote⟩
  rintro (hlt | heq)
  · exact hcontrol (UInt16.le_iff_toNat_le.mpr (Nat.le_of_lt_succ (UInt16.lt_iff_toNat_lt.mp hlt)))
  · exact hbackslash heq

theorem chars_escape {e u : UInt16} (h : escape e = some u) (i : Text) :
    chars (92::e::i) = (chars i).map fun (s,r) => (u::s,r) := by
  have hu : e ≠ 117 := by
    rintro rfl
    cases h
  rw [chars,h]
  · cases chars i <;> rfl
  · exact fun _ _ _ _ _ h => absurd h hu

theorem chars_cons (c : UInt16) (i : Text) :
    chars ((if escapable c then escaped c else [c]) ++ i) = (chars i).map fun (s,r) => (c::s,r) := by
  cases hc : escapable c with
  | false =>
    obtain ⟨hplain,hquote⟩ := escapable_eq_false hc
    rw [if_neg (by simp),List.singleton_append,chars,if_neg hplain]
    · cases chars i <;> rfl
    · exact hquote
    · exact fun _ _ _ _ _ h => absurd (Or.inr h) hplain
    · exact fun _ _ h => absurd (Or.inr h) hplain
  | true =>
    rw [if_pos rfl,escaped]
    unfold substitution
    split
    iterate 7 exact chars_escape rfl i
    · obtain ⟨a,b,d,e,hcode,hhex⟩ := hex4_hexCode c i
      rw [Option.getD_none,List.append_assoc,hcode]
      change chars (92::117::a::b::d::e::i) = _
      rw [chars,hhex]
      cases chars i <;> rfl

theorem chars_flatMap (string r : Text) :
    chars ((string.flatMap fun c => if escapable c then escaped c else [c]) ++ 34::r) = some (string,r) := by
  induction string with
  | nil => rfl
  | cons c string ih => rw [List.flatMap_cons,List.append_assoc,chars_cons,ih]; rfl

/-- What `quote` writes is a string of the grammar, and it is the string that was given. -/
theorem reads_quote (string r : Text) : ∃ i, quote string ++ r = 34::i ∧ chars i = some (string,r) := by
  unfold quote
  split
  · exact ⟨_,by rw [List.cons_append,List.cons_append,List.append_assoc]; rfl,chars_flatMap string r⟩
  · rename_i hany
    have hplain : (string.flatMap fun c => if escapable c then escaped c else [c]) = string := by
      have hone : ∀ c ∈ string, (if escapable c then escaped c else [c]) = [c] :=
        fun c hc => if_neg fun h => hany (List.any_eq_true.mpr ⟨c,hc,h⟩)
      rw [List.flatMap_congr hone]
      simp
    have hread := chars_flatMap string r
    rw [hplain] at hread
    exact ⟨_,by rw [List.cons_append,List.cons_append,List.append_assoc]; rfl,hread⟩

end Quote

section Values

/-- A finite number as it is written, which is how the grammar writes numbers. -/
structure Numeral where
  text : Text
  reads : number text = some (.num text,[])

/-- The values that are data: no functions, and objects without a method of their own. -/
inductive Value
  | undefined
  | null
  | boolean (b : Bool)
  | number (n : Option Numeral)
  | string (s : Text)
  | array (elements : List Value)
  | object (members : List (Text × Value))

/-- The texts of the elements or members between brackets, on lines of their own if there is a gap. -/
def join (opening closing : UInt16) (gap mind : Text) (partials : List Text) : Text :=
  if partials = [] then [opening,closing]
  else if gap ≠ [] then opening::10::gap ++ List.intercalate (44::10::gap) partials ++ 10::mind ++ [closing]
  else opening::List.intercalate [44] partials ++ [closing]

mutual

/-- The text of a value, if it has one, and the gap as it is left. -/
def str (indent : Text) : Value → Text → Option Text × Text
  | .undefined, gap => (none,gap)
  | .null, gap => (some (units "null"),gap)
  | .boolean b, gap => (some (units (if b then "true" else "false")),gap)
  | .number none, gap => (some (units "null"),gap)
  | .number (some n), gap => (some n.text,gap)
  | .string s, gap => (some (quote s),gap)
  | .array vs, mind =>
    let (partials,gap) := strElements indent vs (mind ++ indent)
    (some (join 91 93 gap mind partials),mind)
  | .object ms, mind =>
    let (partials,gap) := strMembers indent ms (mind ++ indent)
    (some (join 123 125 gap mind partials),mind)

def strElements (indent : Text) : List Value → Text → List Text × Text
  | [], gap => ([],gap)
  | v::vs, gap =>
    let (t,gap) := str indent v gap
    let (ts,gap) := strElements indent vs gap
    (t.getD (units "null")::ts,gap)

def strMembers (indent : Text) : List (Text × Value) → Text → List Text × Text
  | [], gap => ([],gap)
  | (k,v)::ms, gap =>
    let (t,gap) := str indent v gap
    let member := t.map fun t => quote k ++ (if gap ≠ [] then [58,32] else [58]) ++ t
    let (ts,gap) := strMembers indent ms gap
    (member.toList ++ ts,gap)

end

inductive Space
  | none
  | number (n : ℤ)
  | string (s : Text)

def Space.indent : Space → Text
  | .none => []
  | .number n => List.replicate n.toNat 32
  | .string s => s

def stringify (value : Value) (space : Space) : Option Text := (str space.indent value []).1

mutual

/-- What is left of a value in a text: no undefined members, and `null` for the elements and the numbers
that have no text. -/
def Value.json : Value → Option Json
  | .undefined => none
  | .null => some .null
  | .boolean b => some (.bool b)
  | .number none => some .null
  | .number (some n) => some (.num n.text)
  | .string s => some (.str s)
  | .array vs => some (.arr (elementsJson vs))
  | .object ms => some (.obj (membersJson ms))

def elementsJson : List Value → List Json
  | [] => []
  | v::vs => v.json.getD .null::elementsJson vs

def membersJson : List (Text × Value) → List (Text × Json)
  | [] => []
  | (k,v)::ms => (v.json.map (k,·)).toList ++ membersJson ms

end

end Values

section Written

variable {indent gap : Text}

theorem writes_quote (s : Text) : Writes (quote s) (.str s) := by
  intro r _
  obtain ⟨i,hi,hchars⟩ := reads_quote s r
  rw [hi]
  exact .str hchars

theorem join_eq (opening closing : UInt16) {gap mind : Text} (hgap : Spaces gap) (hmind : Spaces mind) {ts : List Text}
    (hts : ts ≠ []) : ∃ w w', Spaces w ∧ Spaces w' ∧
      join opening closing gap mind ts = opening::(w ++ (List.intercalate (44::w) ts ++ (w' ++ [closing]))) := by
  have hline {w : Text} (hw : Spaces w) : Spaces (10::w) := List.forall_mem_cons.mpr ⟨rfl,hw⟩
  have hnil : Spaces [] := by simp [Spaces]
  unfold join
  rw [if_neg hts]
  split
  · exact ⟨10::gap,10::mind,hline hgap,hline hmind,by simp⟩
  · exact ⟨[],[],hnil,hnil,by simp⟩

theorem stops_of_spaces {w : Text} (hw : Spaces w) {c : UInt16} {r : Text} (hc : Stops (c::r)) : Stops (w ++ c::r) := by
  cases w with
  | nil => exact hc
  | cons d w =>
    have hd : isSpace d := hw d (by simp)
    simp only [isSpace,decide_eq_true_eq] at hd
    rcases hd with rfl | rfl | rfl | rfl <;> simp [Stops,isDigit]

theorem writes_array {gap mind : Text} (hgap : Spaces gap) (hmind : Spaces mind) {ts : List Text} {vs : List Json}
    (h : List.Forall₂ Writes ts vs) : Writes (join 91 93 gap mind ts) (.arr vs) := by
  intro r _
  by_cases hts : ts = []
  · subst hts
    cases h
    exact .emptyArr rfl
  · obtain ⟨w,w',hw,hw',hjoin⟩ := join_eq 91 93 hgap hmind hts
    have hstops : Stops (w' ++ 93::r) := stops_of_spaces hw' (by simp [Stops,isDigit])
    have hclose : skip (w' ++ 93::r) = 93::r := skip_append hw' _
    have hread := reads_elements hw h hts hstops hclose
    have htext : join 91 93 gap mind ts ++ r = 91::(w ++ (List.intercalate (44::w) ts ++ (w' ++ 93::r))) := by
      simp [hjoin]
    rw [htext]
    refine .arr ?_
    rw [skip_append hw,hread.skip_elements]
    exact hread

theorem writes_object {gap mind : Text} (hgap : Spaces gap) (hmind : Spaces mind) {ts : List Text}
    {ms : List (Text × Json)} (h : List.Forall₂ WritesMember ts ms) : Writes (join 123 125 gap mind ts) (.obj ms) := by
  intro r _
  by_cases hts : ts = []
  · subst hts
    cases h
    exact .emptyObj rfl
  · obtain ⟨w,w',hw,hw',hjoin⟩ := join_eq 123 125 hgap hmind hts
    have hstops : Stops (w' ++ 125::r) := stops_of_spaces hw' (by simp [Stops,isDigit])
    have hclose : skip (w' ++ 125::r) = 125::r := skip_append hw' _
    have hread := reads_members hw h hts hstops hclose
    have htext : join 123 125 gap mind ts ++ r = 123::(w ++ (List.intercalate (44::w) ts ++ (w' ++ 125::r))) := by
      simp [hjoin]
    rw [htext]
    refine .obj ?_
    rw [skip_append hw,hread.skip_members]
    exact hread

theorem writes_member (key : Text) {w t : Text} {v : Json} (hw : Spaces w) (h : Writes t v) :
    WritesMember (quote key ++ 58::w ++ t) (key,v) := by
  have hquote : ∃ i, quote key = 34::i := by
    unfold quote
    split <;> exact ⟨_,rfl⟩
  obtain ⟨i,hi⟩ := hquote
  refine ⟨i ++ 58::w ++ t,by rw [hi]; rfl,fun r hr => ?_⟩
  obtain ⟨j,hj,hchars⟩ := reads_quote key (58::w ++ t ++ r)
  rw [hi,List.cons_append] at hj
  obtain rfl := (List.cons.inj hj).2
  have hread := h r hr
  refine ⟨58::w ++ t ++ r,w ++ (t ++ r),by simpa using hchars,by simp [skip,isSpace],?_⟩
  rw [skip_append hw,hread.skip_eq]
  exact hread

theorem writes_null : Writes (units "null") .null := writes_word (by simp [words])

mutual

theorem str_writes {indent gap : Text} (hindent : Spaces indent) (hgap : Spaces gap) (v : Value) :
    Option.Rel Writes (str indent v gap).1 v.json ∧ (str indent v gap).2 = gap := by
  have hinner : Spaces (gap ++ indent) := List.forall_mem_append.mpr ⟨hgap,hindent⟩
  cases v with
  | undefined => exact ⟨.none,rfl⟩
  | null => exact ⟨.some writes_null,rfl⟩
  | boolean b => cases b <;> exact ⟨.some (writes_word (by simp [words])),rfl⟩
  | number n =>
    cases n with
    | none => exact ⟨.some writes_null,rfl⟩
    | some n => exact ⟨.some (writes_number n.reads),rfl⟩
  | string s => exact ⟨.some (writes_quote s),rfl⟩
  | array vs =>
    obtain ⟨h,hmind⟩ := strElements_writes hindent hinner vs
    refine ⟨.some (writes_array ?_ hgap h),rfl⟩
    rw [hmind]
    exact hinner
  | object ms =>
    obtain ⟨h,hmind⟩ := strMembers_writes hindent hinner ms
    refine ⟨.some (writes_object ?_ hgap h),rfl⟩
    rw [hmind]
    exact hinner

theorem strElements_writes {indent gap : Text} (hindent : Spaces indent) (hgap : Spaces gap) (vs : List Value) :
    List.Forall₂ Writes (strElements indent vs gap).1 (elementsJson vs) ∧ (strElements indent vs gap).2 = gap := by
  cases vs with
  | nil => exact ⟨.nil,rfl⟩
  | cons v vs =>
    obtain ⟨hv,hmind⟩ := str_writes hindent hgap v
    obtain ⟨hvs,hmind'⟩ := strElements_writes hindent hgap vs
    have helement : Writes ((str indent v gap).1.getD (units "null")) (v.json.getD .null) := by
      generalize (str indent v gap).1 = t at hv
      generalize v.json = j at hv
      cases hv with
      | none => exact writes_null
      | some h => exact h
    rw [strElements,elementsJson]
    simp only [hmind]
    exact ⟨.cons helement hvs,hmind'⟩

theorem strMembers_writes {indent gap : Text} (hindent : Spaces indent) (hgap : Spaces gap) (ms : List (Text × Value)) :
    List.Forall₂ WritesMember (strMembers indent ms gap).1 (membersJson ms) ∧ (strMembers indent ms gap).2 = gap := by
  cases ms with
  | nil => exact ⟨.nil,rfl⟩
  | cons m ms =>
    obtain ⟨key,v⟩ := m
    obtain ⟨hv,hmind⟩ := str_writes hindent hgap v
    obtain ⟨hms,hmind'⟩ := strMembers_writes hindent hgap ms
    rw [strMembers,membersJson]
    simp only [hmind]
    refine ⟨?_,hmind'⟩
    generalize (str indent v gap).1 = t at hv
    generalize v.json = j at hv
    cases hv with
    | none => exact hms
    | some h =>
      refine .cons ?_ hms
      split
      · exact writes_member key (List.forall_mem_singleton.mpr rfl) h
      · exact writes_member key (by simp [Spaces]) h

end

/-- The text of a value is read back as this value, whatever it consists of. -/
theorem parse_stringify (value : Value) {space : Space} (hspace : Spaces space.indent) :
    (stringify value space).bind parse = value.json := by
  obtain ⟨hvalue,_⟩ := str_writes hspace (by simp [Spaces] : Spaces []) value
  unfold stringify
  generalize (str space.indent value []).1 = t at hvalue
  generalize value.json = j at hvalue
  cases hvalue with
  | none => rfl
  | some h => exact h.parse_eq

def pluribus : Value := .array [.string (units "e"),.object [(units "pluribus",.string (units "unum"))]]

theorem parse_stringify_tabs : (stringify pluribus (.string [9])).bind parse =
    some (.arr [.str (units "e"),.obj [(units "pluribus",.str (units "unum"))]]) :=
  parse_stringify pluribus (by simp [Spaces,Space.indent,isSpace])

example : stringify pluribus (.string [9]) =
    some (units "[\n\t\"e\",\n\t\x7b\n\t\t\"pluribus\": \"unum\"\n\t\x7d\n]") := by decide

end Written

section Plain

variable {i j t ds : Text}

def Numeric (c : UInt16) : Prop := isDigit c ∨ c ∈ ([43,45,46,69,101] : Text)

theorem digits_numeric (h : digits i = some (ds,j)) : i = ds ++ j ∧ ∀ c ∈ ds, Numeric c := by
  rw [digits] at h
  split at h
  · cases h
  · cases h
    exact ⟨List.takeWhile_append_dropWhile.symm,fun c hc => Or.inl (List.mem_takeWhile_imp hc)⟩

theorem minus_numeric (i : Text) : i = (minus i).1 ++ (minus i).2 ∧ ∀ c ∈ (minus i).1, Numeric c := by
  unfold minus
  split
  · exact ⟨rfl,by simp [Numeric]⟩
  · exact ⟨rfl,by simp⟩

theorem sign_numeric (i : Text) : i = (sign i).1 ++ (sign i).2 ∧ ∀ c ∈ (sign i).1, Numeric c := by
  unfold sign
  split
  · exact ⟨rfl,by simp [Numeric]⟩
  · exact minus_numeric _

theorem integer_numeric (h : integer i = some (ds,j)) : i = ds ++ j ∧ ∀ c ∈ ds, Numeric c := by
  unfold integer at h
  split at h
  · cases h
    exact ⟨rfl,by simp [Numeric,isDigit]⟩
  · exact digits_numeric h

theorem fraction_numeric (h : fraction i = some (ds,j)) : i = ds ++ j ∧ ∀ c ∈ ds, Numeric c := by
  unfold fraction at h
  split at h
  · obtain ⟨⟨ds',k⟩,hdigits,h⟩ := Option.map_eq_some_iff.mp h
    cases h
    obtain ⟨rfl,hds⟩ := digits_numeric hdigits
    exact ⟨rfl,List.forall_mem_cons.mpr ⟨by simp [Numeric],hds⟩⟩
  · cases h
    exact ⟨rfl,by simp⟩

theorem exponent_numeric (h : exponent i = some (ds,j)) : i = ds ++ j ∧ ∀ c ∈ ds, Numeric c := by
  unfold exponent at h
  split at h
  · rename_i c i
    split at h
    · rename_i hletter
      obtain ⟨⟨ds',k⟩,hdigits,h⟩ := Option.map_eq_some_iff.mp h
      cases h
      obtain ⟨hi,hsign⟩ := sign_numeric i
      obtain ⟨hrest,hds⟩ := digits_numeric hdigits
      rw [hrest,← List.append_assoc] at hi
      refine ⟨congrArg (c::·) hi,List.forall_mem_cons.mpr ⟨?_,List.forall_mem_append.mpr ⟨hsign,hds⟩⟩⟩
      rcases hletter with rfl | rfl <;> simp [Numeric]
    · cases h
      exact ⟨rfl,by simp⟩
  · cases h
    exact ⟨rfl,by simp⟩

theorem Numeral.numeric (n : Numeral) : ∀ c ∈ n.text, Numeric c := by
  obtain ⟨⟨ds,k⟩,hinteger,h⟩ := Option.bind_eq_some_iff.mp n.reads
  obtain ⟨⟨fs,l⟩,hfraction,h⟩ := Option.bind_eq_some_iff.mp h
  obtain ⟨⟨es,m⟩,hexponent,h⟩ := Option.bind_eq_some_iff.mp h
  obtain ⟨htext,_⟩ := Prod.mk.inj (Option.some.inj h)
  injection htext with htext
  rw [← htext]
  simp only [List.forall_mem_append]
  exact ⟨⟨⟨(minus_numeric _).2,(integer_numeric hinteger).2⟩,(fraction_numeric hfraction).2⟩,(exponent_numeric hexponent).2⟩

/-- A character that `stringify` can leave in a text: a space, one that needs no escape, or a quote or a
backslash. -/
def Plain (c : UInt16) : Prop := isSpace c ∨ escapable c = false ∨ c = 34 ∨ c = 92

theorem plain_of_letter {c : UInt16} (hlow : 35 ≤ c) (hhigh : c ≤ 126) (hc : c ≠ 92) : Plain c := by
  refine Or.inr (Or.inl ?_)
  simp only [escapable,UInt16.le_iff_toNat_le,← UInt16.toNat_inj,decide_eq_false_iff_not,ne_eq] at *
  simp only [UInt16.toNat_ofNat] at *
  omega

theorem Numeric.plain {c : UInt16} (h : Numeric c) : Plain c := by
  rcases h with hdigit | hmem
  · obtain ⟨hlow,hhigh⟩ := of_decide_eq_true hdigit
    refine plain_of_letter (UInt16.le_trans (by decide) hlow) (UInt16.le_trans hhigh (by decide)) ?_
    rintro rfl
    exact absurd hhigh (by decide)
  · simp only [List.mem_cons,List.not_mem_nil,or_false] at hmem
    rcases hmem with rfl | rfl | rfl | rfl | rfl <;> exact plain_of_letter (by decide) (by decide) (by decide)

theorem plain_hexUnit {n : ℕ} (h : n < 16) : Plain (hexUnit n) := by
  have hrange : ∀ m < 16, 35 ≤ hexUnit m ∧ hexUnit m ≤ 126 ∧ hexUnit m ≠ 92 := by decide
  obtain ⟨hlow,hhigh,hne⟩ := hrange n h
  exact plain_of_letter hlow hhigh hne

theorem plain_escaped (c : UInt16) : ∀ d ∈ escaped c, Plain d := by
  have hbackslash : Plain 92 := Or.inr (Or.inr (Or.inr rfl))
  have hpair {d : UInt16} (hd : Plain d) : ∀ e ∈ [92,d], Plain e :=
    List.forall_mem_cons.mpr ⟨hbackslash,List.forall_mem_singleton.mpr hd⟩
  have hletter {d : UInt16} (hlow : 35 ≤ d) (hhigh : d ≤ 126) (hd : d ≠ 92) : ∀ e ∈ [92,d], Plain e :=
    hpair (plain_of_letter hlow hhigh hd)
  unfold escaped substitution
  split
  iterate 5 exact hletter (by decide) (by decide) (by decide)
  · exact hpair (Or.inr (Or.inr (Or.inl rfl)))
  · exact hpair hbackslash
  · have hc : c.toNat < 65536 := c.toNat_lt
    rw [Option.getD_none,hexCode_eq,List.forall_mem_append]
    refine ⟨hletter (by decide) (by decide) (by decide),?_⟩
    simp only [List.forall_mem_cons,List.not_mem_nil,false_imp_iff,implies_true,and_true]
    exact ⟨plain_hexUnit (by omega),plain_hexUnit (by omega),plain_hexUnit (by omega),plain_hexUnit (by omega)⟩

theorem plain_quote (s : Text) : ∀ c ∈ quote s, Plain c := by
  have hquote : Plain 34 := Or.inr (Or.inr (Or.inl rfl))
  unfold quote
  split
  · simp only [List.forall_mem_cons,List.forall_mem_append,List.mem_flatMap]
    refine ⟨⟨hquote,?_⟩,hquote,by simp⟩
    rintro d ⟨c,_,hd⟩
    split at hd
    · exact plain_escaped c d hd
    · rename_i hc
      rw [List.mem_singleton.mp hd]
      exact Or.inr (Or.inl (Bool.eq_false_of_not_eq_true hc))
  · rename_i hany
    simp only [List.forall_mem_cons,List.forall_mem_append]
    refine ⟨⟨hquote,fun c hc => ?_⟩,hquote,by simp⟩
    exact Or.inr (Or.inl (Bool.eq_false_of_not_eq_true fun h => hany (List.any_eq_true.mpr ⟨c,hc,h⟩)))

theorem plain_intercalate {sep : Text} (hsep : ∀ c ∈ sep, Plain c) {ts : List Text} (hts : ∀ t ∈ ts, ∀ c ∈ t, Plain c) :
    ∀ c ∈ List.intercalate sep ts, Plain c := by
  induction ts with
  | nil => simp
  | cons t ts ih =>
    obtain ⟨ht,hts⟩ := List.forall_mem_cons.mp hts
    cases ts with
    | nil => rwa [List.intercalate_singleton]
    | cons t' ts =>
      rw [List.intercalate_cons_cons,List.forall_mem_append,List.forall_mem_append]
      exact ⟨⟨ht,hsep⟩,ih hts⟩

theorem plain_spaces {w : Text} (hw : Spaces w) : ∀ c ∈ w, Plain c := fun c hc => Or.inl (hw c hc)

theorem plain_join {opening closing : UInt16} (hopening : Plain opening) (hclosing : Plain closing) {gap mind : Text}
    (hgap : Spaces gap) (hmind : Spaces mind) {ts : List Text} (hts : ∀ t ∈ ts, ∀ c ∈ t, Plain c) :
    ∀ c ∈ join opening closing gap mind ts, Plain c := by
  have hcomma : Plain 44 := plain_of_letter (by decide) (by decide) (by decide)
  by_cases hne : ts = []
  · rw [join,if_pos hne]
    exact List.forall_mem_cons.mpr ⟨hopening,List.forall_mem_singleton.mpr hclosing⟩
  · obtain ⟨w,w',hw,hw',hjoin⟩ := join_eq opening closing hgap hmind hne
    rw [hjoin]
    simp only [List.forall_mem_cons,List.forall_mem_append]
    exact ⟨hopening,plain_spaces hw,plain_intercalate (List.forall_mem_cons.mpr ⟨hcomma,plain_spaces hw⟩) hts,
      plain_spaces hw',hclosing,by simp⟩

theorem plain_null : ∀ c ∈ units "null", Plain c := by
  have hunits : units "null" = [110,117,108,108] := rfl
  rw [hunits]
  simp [Plain,escapable,isSpace]

mutual

theorem str_plain {indent gap : Text} (hindent : Spaces indent) (hgap : Spaces gap) (v : Value) :
    ∀ t ∈ (str indent v gap).1, ∀ c ∈ t, Plain c := by
  have hinner : Spaces (gap ++ indent) := List.forall_mem_append.mpr ⟨hgap,hindent⟩
  intro t ht
  cases v with
  | undefined => cases ht
  | null =>
    cases ht
    exact plain_null
  | boolean b =>
    cases ht
    have htrue : units "true" = [116,114,117,101] := rfl
    have hfalse : units "false" = [102,97,108,115,101] := rfl
    cases b <;> simp [htrue,hfalse,Plain,escapable,isSpace]
  | number n =>
    cases n with
    | none =>
      cases ht
      exact plain_null
    | some n =>
      cases ht
      exact fun c hc => (n.numeric c hc).plain
  | string s =>
    cases ht
    exact plain_quote s
  | array vs =>
    have hmind := (strElements_writes hindent hinner vs).2
    cases ht
    refine plain_join ?_ ?_ ?_ hgap (strElements_plain hindent hinner vs)
    · exact plain_of_letter (by decide) (by decide) (by decide)
    · exact plain_of_letter (by decide) (by decide) (by decide)
    · rw [hmind]
      exact hinner
  | object ms =>
    have hmind := (strMembers_writes hindent hinner ms).2
    cases ht
    refine plain_join ?_ ?_ ?_ hgap (strMembers_plain hindent hinner ms)
    · exact plain_of_letter (by decide) (by decide) (by decide)
    · exact plain_of_letter (by decide) (by decide) (by decide)
    · rw [hmind]
      exact hinner

theorem strElements_plain {indent gap : Text} (hindent : Spaces indent) (hgap : Spaces gap) (vs : List Value) :
    ∀ t ∈ (strElements indent vs gap).1, ∀ c ∈ t, Plain c := by
  cases vs with
  | nil => simp [strElements]
  | cons v vs =>
    have hmind := (str_writes hindent hgap v).2
    have hv := str_plain hindent hgap v
    have hvs := strElements_plain hindent hgap vs
    rw [strElements]
    simp only [hmind]
    refine List.forall_mem_cons.mpr ⟨?_,hvs⟩
    generalize (str indent v gap).1 = t at hv
    cases t with
    | none => exact plain_null
    | some t => exact hv t rfl

theorem strMembers_plain {indent gap : Text} (hindent : Spaces indent) (hgap : Spaces gap) (ms : List (Text × Value)) :
    ∀ t ∈ (strMembers indent ms gap).1, ∀ c ∈ t, Plain c := by
  cases ms with
  | nil => simp [strMembers]
  | cons m ms =>
    obtain ⟨key,v⟩ := m
    have hmind := (str_writes hindent hgap v).2
    have hv := str_plain hindent hgap v
    have hms := strMembers_plain hindent hgap ms
    have hcolon : Plain 58 := plain_of_letter (by decide) (by decide) (by decide)
    rw [strMembers]
    simp only [hmind]
    refine List.forall_mem_append.mpr ⟨?_,hms⟩
    generalize (str indent v gap).1 = t at hv
    cases t with
    | none => simp
    | some t =>
      refine List.forall_mem_singleton.mpr ?_
      simp only [List.forall_mem_append]
      refine ⟨⟨plain_quote key,?_⟩,hv t rfl⟩
      split
      · exact List.forall_mem_cons.mpr ⟨hcolon,List.forall_mem_singleton.mpr (Or.inl rfl)⟩
      · exact List.forall_mem_singleton.mpr hcolon

end

/-- The characters that the reading half of the library replaces before it looks at a text. -/
def cx (c : UInt16) : Bool :=
  c = 0 ∨ c = 0xad ∨ 0x600 ≤ c ∧ c ≤ 0x604 ∨ c = 0x70f ∨ c = 0x17b4 ∨ c = 0x17b5 ∨ 0x200c ≤ c ∧ c ≤ 0x200f ∨
    0x2028 ≤ c ∧ c ≤ 0x202f ∨ 0x2060 ≤ c ∧ c ≤ 0x206f ∨ c = 0xfeff ∨ 0xfff0 ≤ c ∧ c ≤ 0xffff

def protect (text : Text) : Text :=
  if text.any cx then text.flatMap fun c => if cx c then units "\\u" ++ hexCode c else [c] else text

theorem escapable_of_cx {c : UInt16} (h : cx c) : escapable c := by
  simp only [cx,decide_eq_true_eq] at h
  simp only [escapable,decide_eq_true_eq]
  rcases h with rfl | h
  · exact Or.inr (Or.inr (Or.inl (by decide)))
  · exact Or.inr (Or.inr (Or.inr (Or.inr h)))

theorem Plain.cx_eq_false {c : UInt16} (h : Plain c) : cx c = false := by
  rcases h with hspace | hc | rfl | rfl
  · simp only [isSpace,decide_eq_true_eq] at hspace
    rcases hspace with rfl | rfl | rfl | rfl <;> rfl
  · refine Bool.eq_false_of_not_eq_true fun hcx => ?_
    rw [escapable_of_cx hcx] at hc
    cases hc
  · rfl
  · rfl

/-- A text has nothing in it that would have to be escaped, and the reading half takes it as it is. -/
theorem stringify_plain (value : Value) {space : Space} (hspace : Spaces space.indent) :
    ∀ t ∈ stringify value space, (∀ c ∈ t, Plain c) ∧ protect t = t := by
  intro t ht
  have hplain : ∀ c ∈ t, Plain c := str_plain hspace (by simp [Spaces]) value t ht
  refine ⟨hplain,if_neg ?_⟩
  simpa using fun c hc => (hplain c hc).cx_eq_false

theorem stringify_plain_tabs : protect (units "[\n\t\"e\",\n\t\x7b\n\t\t\"pluribus\": \"unum\"\n\t\x7d\n]") =
    units "[\n\t\"e\",\n\t\x7b\n\t\t\"pluribus\": \"unum\"\n\t\x7d\n]" := by
  have hspace : Spaces (Space.indent (.string [9])) := by simp [Spaces,Space.indent,isSpace]
  exact (stringify_plain pluribus hspace _ (Option.mem_def.mpr (by decide))).2

end Plain

section Register

/-- The object that `register` fills from the fields of the form. -/
def registeredUser (name username password : Text) : Value :=
  .object [(units "name",.string name),(units "username",.string username),(units "password",.string password)]

def registerBody (name username password : Text) : Option Text := stringify (registeredUser name username password) .none

/-- Whatever stands in the form reaches the service. -/
theorem parse_registerBody (name username password : Text) : (registerBody name username password).bind parse =
    some (.obj [(units "name",.str name),(units "username",.str username),(units "password",.str password)]) :=
  parse_stringify (registeredUser name username password) (by simp [Spaces,Space.indent])

end Register

end Stringify
end Bigbird
