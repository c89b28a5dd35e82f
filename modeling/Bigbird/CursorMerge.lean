import Mathlib

/-! A merge with one cursor: each new element goes before the first element from the cursor on
that has a greater key, or else to the end. Keys are read from the elements, which may fail. -/
namespace CursorMerge

variable {α ε κ : Type} [LinearOrder κ] {read : α → Except ε κ} {d : κ} {l r : List α} {xs : List (α × κ)}

def Passed (read : α → Except ε κ) (d : κ) (e : α) : Prop := ∃ k, read e = .ok k ∧ k ≤ d

/-- The elements from the cursor on before and after the new elements, which come with the keys
that they are placed by. After an element is put at the end, the cursor is on it. -/
inductive Merges (read : α → Except ε κ) : List (α × κ) → List α → List α → Prop
  | done {l : List α} : Merges read [] l l
  | append {a : α} {d : κ} {xs : List (α × κ)} {l r : List α} : (∀ e ∈ l, Passed read d e) →
      Merges read xs [a] r → Merges read ((a,d)::xs) l (l ++ r)
  | insert {a b : α} {d k : κ} {xs : List (α × κ)} {p q r : List α} : (∀ e ∈ p, Passed read d e) →
      read b = .ok k → d < k → Merges read xs (b::q) r → Merges read ((a,d)::xs) (p ++ b::q) (p ++ a::r)

theorem passed_cases (read : α → Except ε κ) (d : κ) (l : List α) : (∀ e ∈ l, Passed read d e) ∨
    ∃ p b q, l = p ++ b::q ∧ (∀ e ∈ p, Passed read d e) ∧
      ((∃ k, read b = .ok k ∧ d < k) ∨ ∃ x, read b = .error x) := by
  induction l with
  | nil => exact Or.inl (by simp)
  | cons a l ih =>
    cases ha : read a with
    | error x => exact Or.inr ⟨[],a,l,rfl,by simp,Or.inr ⟨x,ha⟩⟩
    | ok k =>
      rcases lt_or_ge d k with hk | hk
      · exact Or.inr ⟨[],a,l,rfl,by simp,Or.inl ⟨k,ha,hk⟩⟩
      · have hpassed : Passed read d a := ⟨k,ha,hk⟩
        rcases ih with hall | ⟨p,b,q,rfl,hp,hb⟩
        · exact Or.inl (List.forall_mem_cons.mpr ⟨hpassed,hall⟩)
        · exact Or.inr ⟨a::p,b,q,rfl,List.forall_mem_cons.mpr ⟨hpassed,hp⟩,hb⟩

theorem Merges.perm (h : Merges read xs l r) : r.Perm (l ++ xs.map Prod.fst) := by
  induction h with
  | done => simp
  | append _ _ ih =>
    refine (ih.append_left _).trans ?_
    simp
  | @insert a b d k xs p q r _ _ _ _ ih =>
    have hmove : (a::(b::q ++ xs.map Prod.fst)).Perm (b::q ++ a::xs.map Prod.fst) := List.perm_middle.symm
    simpa using ((ih.cons a).trans hmove).append_left p

theorem Merges.sublist (h : Merges read xs l r) : l.Sublist r := by
  induction h with
  | done => exact List.Sublist.refl _
  | append _ _ _ => exact List.sublist_append_left _ _
  | insert _ _ _ _ ih => exact (List.Sublist.refl _).append (ih.cons _)

theorem not_passed_of_lt {b : α} {k : κ} (hb : read b = .ok k) (hk : d < k) : ¬ Passed read d b := by
  rintro ⟨k',hk',hle⟩
  rw [hb] at hk'
  exact absurd (Except.ok.inj hk' ▸ hle) (not_le.mpr hk)

theorem not_passed_of_error {b : α} {x : ε} (hb : read b = .error x) : ¬ Passed read d b := by
  rintro ⟨k,hk,_⟩
  simp [hb] at hk

theorem stop_unique {P : α → Prop} {p p' q q' : List α} {b b' : α} (hp : ∀ e ∈ p, P e) (hp' : ∀ e ∈ p', P e)
    (hb : ¬ P b) (hb' : ¬ P b') (h : p ++ b::q = p' ++ b'::q') : p = p' ∧ b = b' ∧ q = q' := by
  induction p generalizing p' with
  | nil =>
    cases p' with
    | nil => simpa using h
    | cons e p' =>
      obtain ⟨rfl,_⟩ := List.cons.inj h
      exact absurd (hp' _ List.mem_cons_self) hb
  | cons e p ih =>
    cases p' with
    | nil =>
      obtain ⟨rfl,_⟩ := List.cons.inj h
      exact absurd (hp _ List.mem_cons_self) hb'
    | cons e' p' =>
      obtain ⟨rfl,htail⟩ := List.cons.inj h
      obtain ⟨rfl,hrest⟩ := ih (fun e he => hp e (List.mem_cons_of_mem _ he))
        (fun e he => hp' e (List.mem_cons_of_mem _ he)) htail
      exact ⟨rfl,hrest⟩

theorem merges_append_iff {a : α} (hl : ∀ e ∈ l, Passed read d e) :
    Merges read ((a,d)::xs) l r ↔ ∃ r', Merges read xs [a] r' ∧ r = l ++ r' := by
  constructor
  · intro h
    generalize hall : l = l' at h
    cases h with
    | append _ h => exact ⟨_,h,rfl⟩
    | insert _ hb hk _ => exact absurd (hl _ (by simp [hall])) (not_passed_of_lt hb hk)
  · rintro ⟨r',h,rfl⟩
    exact .append hl h

theorem merges_insert_iff {a b : α} {k : κ} {p q : List α} (hp : ∀ e ∈ p, Passed read d e) (hb : read b = .ok k)
    (hk : d < k) : Merges read ((a,d)::xs) (p ++ b::q) r ↔ ∃ r', Merges read xs (b::q) r' ∧ r = p ++ a::r' := by
  constructor
  · intro h
    generalize hall : p ++ b::q = l at h
    cases h with
    | append hl _ => exact absurd (hl b (by simp [← hall])) (not_passed_of_lt hb hk)
    | insert hp' hb' hk' h =>
      obtain ⟨rfl,rfl,rfl⟩ := stop_unique hp hp' (not_passed_of_lt hb hk) (not_passed_of_lt hb' hk') hall
      exact ⟨_,h,rfl⟩
  · rintro ⟨r',h,rfl⟩
    exact .insert hp hb hk h

theorem not_merges_of_error {a b : α} {x : ε} {p q : List α} (hp : ∀ e ∈ p, Passed read d e)
    (hb : read b = .error x) : ¬ Merges read ((a,d)::xs) (p ++ b::q) r := by
  intro h
  generalize hall : p ++ b::q = l at h
  cases h with
  | append hl _ => exact not_passed_of_error hb (hl b (by simp [← hall]))
  | insert hp' hb' hk' _ =>
    obtain ⟨_,rfl,_⟩ := stop_unique hp hp' (not_passed_of_error hb) (not_passed_of_lt hb' hk') hall
    simp [hb] at hb'

/-- The cursor is on a new element `c` at the end, with which each next one is compared. -/
def Continues (read : α → Except ε κ) : α × κ → List (α × κ) → Prop
  | _, [] => True
  | c, x::xs => ∃ k, read c.1 = .ok k ∧ Continues read (if x.2 < k then c else x) xs

/-- New elements go before elements of `l` until one has to go to the end. -/
def Mergeable (read : α → Except ε κ) (key : α → κ) : List α → List (α × κ) → Prop
  | _, [] => True
  | l, x::xs =>
    if (l.dropWhile fun e => key e ≤ x.2) = [] then Continues read x xs
    else Mergeable read key (l.dropWhile fun e => key e ≤ x.2) xs

theorem merges_iff_continues {c : α × κ} : (∃ r, Merges read xs [c.1] r) ↔ Continues read c xs := by
  induction xs generalizing c with
  | nil => exact ⟨fun _ => trivial,fun _ => ⟨_,.done⟩⟩
  | cons x xs ih =>
    cases hread : read c.1 with
    | error e =>
      have hno {r : List α} : ¬ Merges read (x::xs) [c.1] r := not_merges_of_error (p:=[]) (by simp) hread
      simp [Continues,hread,hno]
    | ok k =>
      simp only [Continues,hread,Except.ok.injEq,exists_eq_left']
      by_cases hk : x.2 < k
      · have hsplit {r : List α} : Merges read (x::xs) [c.1] r ↔ ∃ r', Merges read xs [c.1] r' ∧ r = x.1::r' :=
          merges_insert_iff (p:=[]) (by simp) hread hk
        rw [if_pos hk,← ih]
        constructor
        · rintro ⟨r,hr⟩
          obtain ⟨r',hr',_⟩ := hsplit.mp hr
          exact ⟨r',hr'⟩
        · rintro ⟨r',hr'⟩
          exact ⟨_,hsplit.mpr ⟨r',hr',rfl⟩⟩
      · have hpassed : ∀ e ∈ [c.1], Passed read x.2 e := fun e he => by
          obtain rfl := List.mem_singleton.mp he
          exact ⟨k,hread,not_lt.mp hk⟩
        rw [if_neg hk,← ih]
        constructor
        · rintro ⟨r,hr⟩
          obtain ⟨r',hr',_⟩ := (merges_append_iff hpassed).mp hr
          exact ⟨r',hr'⟩
        · rintro ⟨r',hr'⟩
          exact ⟨_,.append hpassed hr'⟩

theorem passed_iff {key : α → κ} {e : α} (he : read e = .ok (key e)) : Passed read d e ↔ key e ≤ d := by
  refine ⟨?_,fun hle => ⟨_,he,hle⟩⟩
  rintro ⟨k,hk,hle⟩
  rw [he] at hk
  exact Except.ok.inj hk ▸ hle

/-- A merge comes to its end exactly if it need not read a new element that cannot be read. -/
theorem merges_iff_mergeable {key : α → κ} (hl : ∀ e ∈ l, read e = .ok (key e)) :
    (∃ r, Merges read xs l r) ↔ Mergeable read key l xs := by
  induction xs generalizing l with
  | nil => exact ⟨fun _ => trivial,fun _ => ⟨l,.done⟩⟩
  | cons x xs ih =>
    rcases passed_cases read x.2 l with hall | ⟨p,b,q,rfl,hp,⟨k,hb,hk⟩ | ⟨x',hb⟩⟩
    · have hdrop : (l.dropWhile fun e => key e ≤ x.2) = [] :=
        List.dropWhile_eq_nil_iff.mpr fun e he => by simpa using (passed_iff (hl e he)).mp (hall e he)
      rw [Mergeable,if_pos hdrop,← merges_iff_continues]
      constructor
      · rintro ⟨r,hr⟩
        obtain ⟨r',hr',_⟩ := (merges_append_iff hall).mp hr
        exact ⟨r',hr'⟩
      · rintro ⟨r',hr'⟩
        exact ⟨_,.append hall hr'⟩
    · have hdrop : ((p ++ b::q).dropWhile fun e => key e ≤ x.2) = b::q := by
        have hkey : key b = k := Except.ok.inj ((hl b (by simp)).symm.trans hb)
        have hpkey : ∀ e ∈ p, decide (key e ≤ x.2) = true := fun e he => by
          simpa using (passed_iff (hl e (List.mem_append_left _ he))).mp (hp e he)
        rw [List.dropWhile_append_of_pos hpkey,List.dropWhile_cons_of_neg (by simpa [hkey] using hk)]
      rw [Mergeable,hdrop,if_neg (by simp),← ih fun e he => hl e (List.mem_append_right _ he)]
      constructor
      · rintro ⟨r,hr⟩
        obtain ⟨r',hr',_⟩ := (merges_insert_iff hp hb hk).mp hr
        exact ⟨r',hr'⟩
      · rintro ⟨r',hr'⟩
        exact ⟨_,.insert hp hb hk hr'⟩
    · simp [hl b (by simp)] at hb

theorem continues_of_read {c : α × κ} (hxs : ∀ x ∈ c::xs, ∃ k, read x.1 = .ok k) : Continues read c xs := by
  induction xs generalizing c with
  | nil => trivial
  | cons x xs ih =>
    obtain ⟨⟨k,hk⟩,hrest⟩ := List.forall_mem_cons.mp hxs
    refine ⟨k,hk,ih ?_⟩
    split
    · exact List.forall_mem_cons.mpr ⟨⟨k,hk⟩,fun y hy => hrest y (List.mem_cons_of_mem _ hy)⟩
    · exact hrest

theorem mergeable_of_read {key : α → κ} (hxs : ∀ x ∈ xs, ∃ k, read x.1 = .ok k) : Mergeable read key l xs := by
  induction xs generalizing l with
  | nil => trivial
  | cons x xs ih =>
    rw [Mergeable]
    split
    · exact continues_of_read hxs
    · exact ih fun y hy => hxs y (List.mem_cons_of_mem _ hy)

/-- Each new element but the last goes before one of `l`, at or after the place of the one before. -/
def Placed (key : α → κ) : List α → List (α × κ) → Prop
  | _, [] => True
  | l, x::xs => xs = [] ∨ (l.dropWhile fun e => key e ≤ x.2) ≠ [] ∧ Placed key (l.dropWhile fun e => key e ≤ x.2) xs

theorem continues_iff_nil {c : α × κ} {e : ε} (hc : read c.1 = .error e) : Continues read c xs ↔ xs = [] := by
  cases xs with
  | nil => exact ⟨fun _ => rfl,fun _ => trivial⟩
  | cons x xs => simp [Continues,hc]

/-- If no new element can be read, none but the last may go to the end. -/
theorem mergeable_iff_placed {key : α → κ} (hxs : ∀ x ∈ xs, ∃ e, read x.1 = .error e) :
    Mergeable read key l xs ↔ Placed key l xs := by
  induction xs generalizing l with
  | nil => exact Iff.rfl
  | cons x xs ih =>
    obtain ⟨⟨e,hx⟩,hxs⟩ := List.forall_mem_cons.mp hxs
    rw [Mergeable,Placed]
    split
    · rename_i hdrop
      simp [hdrop,continues_iff_nil hx]
    · rename_i hdrop
      rw [ih hxs]
      constructor
      · exact fun h => Or.inr ⟨hdrop,h⟩
      · rintro (rfl | ⟨_,h⟩)
        · trivial
        · exact h

section Sorted

variable {key : α → κ}

def Descending (key : α → κ) (l : List α) : Prop := l.Pairwise fun a b => key b ≤ key a

theorem descending_append {l₁ l₂ : List α} : Descending key (l₁ ++ l₂) ↔
    Descending key l₁ ∧ Descending key l₂ ∧ ∀ a ∈ l₁, ∀ b ∈ l₂, key b ≤ key a := List.pairwise_append

theorem descending_cons {a : α} : Descending key (a::l) ↔ (∀ b ∈ l, key b ≤ key a) ∧ Descending key l :=
  List.pairwise_cons

/-- The cursor is on a new element `c` at the end: the next new ones are put behind it, or have
the same key. -/
def Settles (read : α → Except ε κ) : α × κ → List (α × κ) → Prop
  | _, [] => True
  | c, x::xs => ∃ k, read c.1 = .ok k ∧
    if x.2 < k then x.2 = c.2 ∧ Settles read c xs else Settles read x xs

theorem descending_iff_settles {c : α × κ} (hkey : ∀ x ∈ c::xs, key x.1 = x.2)
    (hxs : (c::xs).Pairwise fun x y => y.2 ≤ x.2) :
    (∃ r, Merges read xs [c.1] r ∧ Descending key r) ↔ Settles read c xs := by
  induction xs generalizing c with
  | nil => exact ⟨fun _ => trivial,fun _ => ⟨_,.done,List.pairwise_singleton _ _⟩⟩
  | cons x xs ih =>
    obtain ⟨hc,hrest⟩ := List.pairwise_cons.mp hxs
    have hx := (List.pairwise_cons.mp hrest).1
    have hkeyc : key c.1 = c.2 := hkey c (by simp)
    have hkeyx : key x.1 = x.2 := hkey x (by simp)
    have hbelow {y : α × κ} {r : List α} (hr : Merges read xs [y.1] r) {b : α} (hb : b ∈ r) :
        b = y.1 ∨ key b ≤ x.2 := by
      rcases List.mem_append.mp (hr.perm.mem_iff.mp hb) with hb | hb
      · exact Or.inl (List.mem_singleton.mp hb)
      · obtain ⟨z,hz,rfl⟩ := List.mem_map.mp hb
        exact Or.inr (hkey z (by simp [hz]) ▸ hx z hz)
    have hcmem {r : List α} (hr : Merges read xs [c.1] r) : c.1 ∈ r := hr.perm.mem_iff.mpr (by simp)
    cases hread : read c.1 with
    | error e =>
      have hno {r : List α} : ¬ Merges read (x::xs) [c.1] r := not_merges_of_error (p:=[]) (by simp) hread
      simp [Settles,hread,hno]
    | ok k =>
      simp only [Settles,hread,Except.ok.injEq,exists_eq_left']
      by_cases hk : x.2 < k
      · rw [if_pos hk,← ih (c:=c) (fun y hy => hkey y (by grind)) (List.pairwise_cons.mpr
          ⟨fun y hy => hc y (List.mem_cons_of_mem _ hy),(List.pairwise_cons.mp hrest).2⟩)]
        have hsplit {r : List α} : Merges read (x::xs) [c.1] r ↔ ∃ r', Merges read xs [c.1] r' ∧ r = x.1::r' :=
          merges_insert_iff (p:=[]) (by simp) hread hk
        constructor
        · rintro ⟨r,hr,hsorted⟩
          obtain ⟨r',hr',rfl⟩ := hsplit.mp hr
          obtain ⟨hle,hsorted⟩ := descending_cons.mp hsorted
          have hcx := hle c.1 (hcmem hr')
          rw [hkeyc,hkeyx] at hcx
          exact ⟨le_antisymm (hc x List.mem_cons_self) hcx,r',hr',hsorted⟩
        · rintro ⟨heq,r',hr',hsorted⟩
          refine ⟨_,hsplit.mpr ⟨r',hr',rfl⟩,descending_cons.mpr ⟨fun b hb => ?_,hsorted⟩⟩
          rw [hkeyx]
          rcases hbelow hr' hb with rfl | hle
          · rw [hkeyc,heq]
          · exact hle
      · rw [if_neg hk,← ih (c:=x) (fun y hy => hkey y (List.mem_cons_of_mem _ hy)) hrest]
        have hpassed : ∀ e ∈ [c.1], Passed read x.2 e := fun e he => by
          obtain rfl := List.mem_singleton.mp he
          exact ⟨k,hread,not_lt.mp hk⟩
        have hsplit {r : List α} : Merges read (x::xs) [c.1] r ↔ ∃ r', Merges read xs [x.1] r' ∧ r = [c.1] ++ r' :=
          merges_append_iff hpassed
        constructor
        · rintro ⟨r,hr,hsorted⟩
          obtain ⟨r',hr',rfl⟩ := hsplit.mp hr
          exact ⟨r',hr',(descending_cons.mp hsorted).2⟩
        · rintro ⟨r',hr',hsorted⟩
          refine ⟨_,hsplit.mpr ⟨r',hr',rfl⟩,descending_cons.mpr ⟨fun b hb => ?_,hsorted⟩⟩
          rw [hkeyc]
          rcases hbelow hr' hb with rfl | hle
          · exact hkeyx ▸ hc x List.mem_cons_self
          · exact hle.trans (hc x List.mem_cons_self)

/-- Nothing is new, or all keys of the old elements are that of the first new one, on which the
others settle. -/
def Aligned (read : α → Except ε κ) (key : α → κ) (l : List α) : List (α × κ) → Prop
  | [] => True
  | x::xs => (∀ e ∈ l, key e = x.2) ∧ Settles read x xs

/-- The result of a merge of two sorted lists is sorted exactly if they are aligned. -/
theorem descending_iff_aligned (hl : ∀ e ∈ l, read e = .ok (key e)) (hsorted : Descending key l)
    (hkey : ∀ x ∈ xs, key x.1 = x.2) (hxs : xs.Pairwise fun x y => y.2 ≤ x.2) :
    (∃ r, Merges read xs l r ∧ Descending key r) ↔ Aligned read key l xs := by
  cases xs with
  | nil => exact ⟨fun _ => trivial,fun _ => ⟨l,.done,hsorted⟩⟩
  | cons x xs =>
    have hkeyx : key x.1 = x.2 := hkey x List.mem_cons_self
    rw [Aligned,← descending_iff_settles hkey hxs]
    rcases passed_cases read x.2 l with hall | ⟨p,b,q,rfl,hp,⟨k,hb,hk⟩ | ⟨e,hb⟩⟩
    · have hle {e : α} (he : e ∈ l) : key e ≤ x.2 := by
        obtain ⟨k,hk,hle⟩ := hall e he
        rw [hl e he] at hk
        exact Except.ok.inj hk ▸ hle
      constructor
      · rintro ⟨r,hr,hdesc⟩
        obtain ⟨r',hr',rfl⟩ := (merges_append_iff hall).mp hr
        obtain ⟨_,hdesc',hacross⟩ := descending_append.mp hdesc
        have hmem : x.1 ∈ r' := hr'.perm.mem_iff.mpr (by simp)
        exact ⟨fun e he => le_antisymm (hle he) (hkeyx ▸ hacross e he x.1 hmem),r',hr',hdesc'⟩
      · rintro ⟨heq,r',hr',hdesc⟩
        refine ⟨_,.append hall hr',descending_append.mpr ⟨hsorted,hdesc,fun a ha b hb => ?_⟩⟩
        rw [heq a ha]
        rcases List.mem_append.mp (hr'.perm.mem_iff.mp hb) with hb | hb
        · obtain rfl := List.mem_singleton.mp hb
          exact hkeyx.le
        · obtain ⟨z,hz,rfl⟩ := List.mem_map.mp hb
          rw [hkey z (List.mem_cons_of_mem _ hz)]
          exact (List.pairwise_cons.mp hxs).1 z hz
    · have hkeyb : key b = k := Except.ok.inj ((hl b (by simp)).symm.trans hb)
      constructor
      · rintro ⟨r,hr,hdesc⟩
        obtain ⟨r',hr',rfl⟩ := (merges_insert_iff hp hb hk).mp hr
        have hmem : b ∈ r' := hr'.sublist.subset List.mem_cons_self
        have hle := (descending_cons.mp (descending_append.mp hdesc).2.1).1 b hmem
        rw [hkeyb,hkeyx] at hle
        exact absurd hle (not_le.mpr hk)
      · rintro ⟨heq,_⟩
        have hbx := heq b (by simp)
        rw [hkeyb] at hbx
        exact absurd hk (by simp [hbx])
    · simp [hl b (by simp)] at hb

theorem settles_iff {c : α × κ} (hread : ∀ x ∈ c::xs, read x.1 = .ok x.2)
    (hxs : (c::xs).Pairwise fun x y => y.2 ≤ x.2) : Settles read c xs ↔ ∀ x ∈ xs, x.2 = c.2 := by
  induction xs generalizing c with
  | nil => simp [Settles]
  | cons x xs ih =>
    obtain ⟨hc,hrest⟩ := List.pairwise_cons.mp hxs
    have hx := ih (c:=x) (fun y hy => hread y (List.mem_cons_of_mem _ hy)) hrest
    have hcxs := ih (c:=c) (fun y hy => hread y (by grind)) (List.pairwise_cons.mpr
      ⟨fun y hy => hc y (List.mem_cons_of_mem _ hy),(List.pairwise_cons.mp hrest).2⟩)
    simp only [Settles,hread c List.mem_cons_self,Except.ok.injEq,exists_eq_left',List.forall_mem_cons]
    split
    · rw [hcxs]
    · rename_i hge
      have heq : x.2 = c.2 := le_antisymm (hc x List.mem_cons_self) (not_lt.mp hge)
      rw [hx,heq]
      simp

theorem aligned_iff (hread : ∀ x ∈ xs, read x.1 = .ok x.2) (hxs : xs.Pairwise fun x y => y.2 ≤ x.2) :
    Aligned read key l xs ↔ ∀ x ∈ xs, (∀ e ∈ l, key e = x.2) ∧ ∀ y ∈ xs, y.2 = x.2 := by
  cases xs with
  | nil => simp [Aligned]
  | cons x xs =>
    rw [Aligned,settles_iff hread hxs]
    constructor
    · rintro ⟨hl,hall⟩ y hy
      have hyx : y.2 = x.2 := (List.mem_cons.mp hy).elim (fun h => by rw [h]) (hall y)
      refine ⟨fun e he => (hl e he).trans hyx.symm,fun z hz => ?_⟩
      exact ((List.mem_cons.mp hz).elim (fun h => by rw [h]) (hall z)).trans hyx.symm
    · intro h
      obtain ⟨hl,hall⟩ := h x List.mem_cons_self
      exact ⟨hl,fun y hy => hall y (List.mem_cons_of_mem _ hy)⟩

end Sorted

end CursorMerge
