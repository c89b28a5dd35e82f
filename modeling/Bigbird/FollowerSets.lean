import Bigbird.EntryFormat

/-! The sets of followers and followed users as the user maps store them: which of them are
read back as they were written. -/
namespace Bigbird
namespace TweetService

open JavaText VersionedStore Programs

section Writing

theorem intercalate_append_cons (a b : JString) (l : List JString) :
    [','].intercalate ((a ++ b)::l) = a ++ [','].intercalate (b::l) := by
  cases l with
  | nil => simp
  | cons s l => simp only [List.intercalate_cons_cons,List.append_assoc]

theorem foldl_eq_intercalate (l : List JString) {sb : JString} (hsb : sb ≠ []) :
    l.foldl (fun sb s => (if 0 < sb.length then sb ++ [','] else sb) ++ s) sb = [','].intercalate (sb::l) := by
  induction l generalizing sb with
  | nil => simp
  | cons s l ih =>
    have hpos : 0 < sb.length := List.length_pos_of_ne_nil hsb
    rw [List.foldl_cons,if_pos hpos,ih (by simp),intercalate_append_cons,List.intercalate_cons_cons,List.append_assoc]

theorem toString_eq_intercalate {l : List JString} (hne : ∀ s ∈ l, s ≠ []) : toString l = [','].intercalate l := by
  cases l with
  | nil => rfl
  | cons s l =>
    have hs : s ≠ [] := hne s List.mem_cons_self
    rw [toString,List.foldl_cons]
    exact foldl_eq_intercalate l hs

/-- What is read from the encoding of no name: the array that `split` makes of an empty string. -/
theorem asSet_toString_nil : asSet (some (toString [])) = [[]] := rfl

theorem asSet_toString {l : List JString} (hl : l ≠ []) (hnodup : l.Nodup) (hne : ∀ s ∈ l, s ≠ [])
    (hcomma : ∀ s ∈ l, ',' ∉ s) : asSet (some (toString l)) = l := by
  rw [asSet,toString_eq_intercalate hne,split_intercalate hl hcomma hne,List.dedup_eq_self]
  exact hnodup

end Writing

section Sets

variable {S : Finset JString} {l : List JString}

/-- A set whose encoding shows where each name ends. -/
def Separable (S : Finset JString) : Prop := S.Nonempty ∧ ∀ s ∈ S, ',' ∉ s

instance (S : Finset JString) : Decidable (Separable S) := by
  unfold Separable
  infer_instance

theorem asSet_toString_eq_iff (hne : ∀ s ∈ S, s ≠ []) (hl : l.Perm S.toList) :
    (asSet (some (toString l))).toFinset = S ↔ Separable S := by
  have hmem (s : JString) : s ∈ l ↔ s ∈ S := hl.mem_iff.trans Finset.mem_toList
  constructor
  · intro h
    refine ⟨?_,fun s hs => ?_⟩
    · rw [Finset.nonempty_iff_ne_empty]
      rintro rfl
      have hnil : l = [] := by simpa using hl
      rw [hnil,asSet_toString_nil] at h
      simp at h
    · rw [← h,List.mem_toFinset] at hs
      exact not_mem_of_mem_asSet hs
  · rintro ⟨⟨x,hx⟩,hcomma⟩
    have hread : asSet (some (toString l)) = l := by
      refine asSet_toString ?_ (hl.nodup_iff.mpr S.nodup_toList) (fun s hs => hne s ((hmem s).mp hs))
        fun s hs => hcomma s ((hmem s).mp hs)
      exact List.ne_nil_of_mem ((hmem x).mpr hx)
    ext s
    rw [hread,List.mem_toFinset,hmem]

/-- The last name leaves an encoding that is read as a set with one empty name. -/
theorem asSet_removeName {order : List JString → List JString} (horder : ∀ l, (order l).Perm l) {user : UserMap}
    {e : Edges} {x : JString} (hlast : asSet (user.edges e) = [x]) :
    asSet ((user.removeName order e x).edges e) = [[]] := by
  have hnil : order [] = [] := List.perm_nil.mp (horder [])
  rw [UserMap.removeName,UserMap.edges_setEdges,hlast,List.erase_cons_head,hnil,asSet_toString_nil]

end Sets

section RoundTrip

/-- Two sets of names are read back as they were written, and so have different encodings if
they differ, exactly if both are separable. Every name is accepted, and the set that a last
name is removed from is never read back as the empty one. -/
theorem followers_decode_iff {S S' : Finset JString} (hS : ∀ s ∈ S, s ≠ []) (hS' : ∀ s ∈ S', s ≠ [])
    {l l' : List JString} (hl : l.Perm S.toList) (hl' : l'.Perm S'.toList) :
    ((asSet (some (toString l))).toFinset = S ∧ (asSet (some (toString l'))).toFinset = S' ∧
      (toString l = toString l' → S = S') ↔ Separable S ∧ Separable S') ∧
    (∀ s ∈ S, ∀ order job w password name,
      (runAlone order job (WebUser.register (some ⟨s,password,name⟩)) w).1 = .ok 200) ∧
    ∀ (order : List JString → List JString) (user : UserMap) (e : Edges) (x : JString), (∀ l, (order l).Perm l) →
      asSet (user.edges e) = [x] → asSet ((user.removeName order e x).edges e) = [[]] := by
  refine ⟨?_,fun s _ order job w password name => register_accepts order job w ⟨s,password,name⟩,
    fun order user e x horder hlast => asSet_removeName horder hlast⟩
  have hiff := asSet_toString_eq_iff hS hl
  have hiff' := asSet_toString_eq_iff hS' hl'
  constructor
  · rintro ⟨h,h',_⟩
    exact ⟨hiff.mp h,hiff'.mp h'⟩
  · rintro ⟨h,h'⟩
    have hread := hiff.mpr h
    have hread' := hiff'.mpr h'
    refine ⟨hread,hread',fun heq => ?_⟩
    rw [← hread,heq,hread']

theorem followers_decode_ab_c :
    (asSet (some ['a','b',',','c'])).toFinset = [['a','b'],['c']].toFinset := by
  have h := @followers_decode_iff [['a','b'],['c']].toFinset [['c']].toFinset (by decide) (by decide)
    [['a','b'],['c']] [['c']] (List.toFinset_toList (by decide)).symm (List.toFinset_toList (by decide)).symm
  exact (h.1.mpr (by decide)).1

/-- No set is read back from the encoding of the empty one, and a set with a comma in a name has
the encoding of another. -/
theorem followers_undecoded :
    (asSet (some (toString (∅ : Finset JString).toList))).toFinset ≠ ∅ ∧
    toString [['a',',','b']] = toString [['a'],['b']] ∧
    (asSet (some (toString [['a',',','b']]))).toFinset ≠ {['a',',','b']} ∧
    (runAlone id (.newUser ⟨['a',',','b'],some ['p'],some ['n']⟩)
      (WebUser.register (some ⟨['a',',','b'],some ['p'],some ['n']⟩)) ⟨fun _ _ => [],[]⟩).1 = .ok 200 := by
  refine ⟨?_,by decide,by decide,register_accepts _ _ _ _⟩
  rw [Finset.toList_empty]
  decide

end RoundTrip

end TweetService
end Bigbird
