import Mathlib.Data.List.Induction

/-! Runs of a partial step function under a list of events, where every step may
be required to meet a side condition in the state it starts from. -/
namespace Runs

variable {S E T A : Type} {step : E → S → Option S} {cond cond' : E → S → Prop} {s₀ s s' : S}

/-- Take the given steps in order; `none` once one of them is not possible. -/
def run (step : E → S → Option S) : List E → S → Option S
  | [], s => some s
  | e::es, s => (step e s).bind (run step es)

/-- States reached from `s₀` by steps that all meet `cond`. -/
inductive Reaches (step : E → S → Option S) (cond : E → S → Prop) (s₀ : S) : List E → S → Prop
  | start : Reaches step cond s₀ [] s₀
  | next {es : List E} {s s' : S} (e : E) : Reaches step cond s₀ es s → cond e s →
      step e s = some s' → Reaches step cond s₀ (es++[e]) s'

def anyStep : E → S → Prop := fun _ _ => True

/-- What one step preserves, a whole run preserves. -/
theorem Reaches.invariant {I : S → Prop} {es : List E} (h : Reaches step cond s₀ es s)
    (h₀ : I s₀) (hstep : ∀ e s s', I s → cond e s → step e s = some s' → I s') : I s := by
  induction h with
  | start => exact h₀
  | next e _ hc hs ih => exact hstep _ _ _ ih hc hs

theorem Reaches.mono {es : List E} (h : Reaches step cond s₀ es s)
    (hc : ∀ e s, cond e s → cond' e s) : Reaches step cond' s₀ es s := by
  induction h with
  | start => exact .start
  | next e _ hce hs ih => exact .next e ih (hc _ _ hce) hs

theorem Reaches.weaken {es : List E} (h : Reaches step cond s₀ es s) :
    Reaches step anyStep s₀ es s := h.mono fun _ _ _ => trivial

theorem Reaches.trans {es fs : List E} (h : Reaches step cond s₀ es s) (h' : Reaches step cond s fs s') :
    Reaches step cond s₀ (es++fs) s' := by
  induction h' with
  | start => simpa using h
  | next e _ hc hs ih =>
    rw [← List.append_assoc]
    exact .next e ih hc hs

theorem Reaches.mem_events {es : List E} (h : Reaches step cond s₀ es s) :
    Reaches step (fun e s => cond e s ∧ e ∈ es) s₀ es s := by
  induction h with
  | start => exact .start
  | next e _ hc hs ih =>
    refine .next e (ih.mono fun e' _ h => ⟨h.1,List.mem_append_left _ h.2⟩) ⟨hc,?_⟩ hs
    exact List.mem_append_right _ (List.mem_singleton.mpr rfl)

theorem reaches_concat_iff {es : List E} {e : E} : Reaches step cond s₀ (es++[e]) s ↔
    ∃ u, Reaches step cond s₀ es u ∧ cond e u ∧ step e u = some s := by
  constructor
  · intro h
    generalize hfs : es++[e] = fs at h
    cases h with
    | start => simp at hfs
    | next e' h hc hs =>
      obtain ⟨rfl,he⟩ := List.append_inj' hfs rfl
      obtain rfl := List.singleton_inj.mp he
      exact ⟨_,h,hc,hs⟩
  · rintro ⟨u,h,hc,hs⟩
    exact .next e h hc hs

theorem Reaches.exists_step {es : List E} (h : Reaches step cond s₀ es s) {e : E} (he : e ∈ es) :
    ∃ fs gs u u', es = fs ++ e::gs ∧ Reaches step cond s₀ fs u ∧ cond e u ∧ step e u = some u' ∧
      Reaches step cond u' gs s := by
  induction h with
  | start => simp at he
  | @next es s s' e' h hc hs ih =>
    rcases List.mem_append.mp he with he | he
    · obtain ⟨fs,gs,u,u',rfl,hfs,hcu,hu,hgs⟩ := ih he
      exact ⟨fs,gs++[e'],u,u',by simp,hfs,hcu,hu,.next e' hgs hc hs⟩
    · obtain rfl := List.mem_singleton.mp he
      exact ⟨es,[],s,s',rfl,h,hc,hs,.start⟩

/-- If every step is a step of another system on what it sees of the state, or leaves that alone,
a run is a run of that system, and the events of that run have their causes in this one. -/
theorem Reaches.simulates {look : A → T → Option T} {condA : A → T → Prop} {view : S → T} {causes : E → A → Prop}
    {es : List E} (h : Reaches step cond s₀ es s)
    (hstep : ∀ e s s', cond e s → step e s = some s' → view s' = view s ∨
      ∃ a, causes e a ∧ condA a (view s) ∧ look a (view s) = some (view s')) :
    ∃ as, Reaches look condA (view s₀) as (view s) ∧ ∀ a ∈ as, ∃ e ∈ es, causes e a := by
  induction h with
  | start => exact ⟨[],.start,by simp⟩
  | next e _ hc hs ih =>
    obtain ⟨as,has,hcauses⟩ := ih
    have hbefore : ∀ a ∈ as, ∃ e' ∈ _ ++ [e], causes e' a := fun a ha =>
      (hcauses a ha).imp fun _ he => ⟨List.mem_append_left _ he.1,he.2⟩
    rcases hstep e _ _ hc hs with heq | ⟨a,hcause,hca,ha⟩
    · exact ⟨as,by rwa [heq],hbefore⟩
    · refine ⟨as++[a],.next a has hca ha,fun b hb => ?_⟩
      rcases List.mem_append.mp hb with hb | hb
      · exact hbefore b hb
      · obtain rfl := List.mem_singleton.mp hb
        exact ⟨e,List.mem_append_right _ (List.mem_singleton.mpr rfl),hcause⟩

theorem run_append (es fs : List E) (s : S) :
    run step (es++fs) s = (run step es s).bind (run step fs) := by
  induction es generalizing s with
  | nil => rfl
  | cons e es ih => cases h : step e s <;> simp [run,h,ih]

theorem Reaches.run_eq {es : List E} (h : Reaches step cond s₀ es s) : run step es s₀ = some s := by
  induction h with
  | start => rfl
  | next e _ _ hs ih => simp [run_append,ih,run,hs]

theorem Reaches.of_append {es fs : List E} (h : Reaches step cond s₀ (es++fs) s) :
    ∃ u, Reaches step cond s₀ es u := by
  induction fs using List.reverseRecOn generalizing s with
  | nil => exact ⟨s,by simpa using h⟩
  | append_singleton fs f ih =>
    generalize hgs : es++(fs++[f]) = gs at h
    cases h with
    | start => simp at hgs
    | next e h _ _ =>
      have heq := congrArg List.dropLast hgs
      simp only [← List.append_assoc,List.dropLast_concat] at heq
      exact ih (heq ▸ h)

/-- Among the runs whose steps meet `base`, those whose every state satisfies `I` are those
whose steps also meet `cond`, when `J` holds of every state and `I` is preserved by exactly
the steps that meet `cond`. -/
theorem invariant_iff_conditions_within {base : E → S → Prop} {I J : S → Prop} (hJ : J s₀)
    (hI : I s₀) (hstepJ : ∀ e s s', J s → base e s → step e s = some s' → J s')
    (hstepI : ∀ e s s', J s → I s → base e s → step e s = some s' → (I s' ↔ cond e s))
    {es : List E} (h : Reaches step base s₀ es s) :
    (∀ fs t, fs <+: es → Reaches step base s₀ fs t → I t) ↔
      Reaches step (fun e s => base e s ∧ cond e s) s₀ es s := by
  have hall {fs : List E} {t : S} (ht : Reaches step base s₀ fs t) : J t :=
    ht.invariant hJ fun e s s' hj hb hs => hstepJ e s s' hj hb hs
  constructor
  · intro hi
    induction h with
    | start => exact .start
    | @next es s s' e h hb hs ih =>
      have hpre := ih fun fs t hf ht => hi fs t (hf.trans (List.prefix_append _ _)) ht
      have hi₁ : I s := hi es s (List.prefix_append _ _) h
      have hi₂ : I s' := hi (es++[e]) s' (List.prefix_refl _) (.next e h hb hs)
      exact .next e hpre ⟨hb,(hstepI e s s' (hall h) hi₁ hb hs).mp hi₂⟩ hs
  · rintro hc fs t ⟨gs,rfl⟩ ht
    obtain ⟨u,hu⟩ := hc.of_append
    have htu : t = u := Option.some.inj (ht.run_eq.symm.trans hu.run_eq)
    rw [htu]
    have hij := hu.invariant (I:=fun s => J s ∧ I s) ⟨hJ,hI⟩ fun e s s' hi hce hs =>
      ⟨hstepJ e s s' hi.1 hce.1 hs,(hstepI e s s' hi.1 hi.2 hce.1 hs).mpr hce.2⟩
    exact hij.2

theorem invariant_iff_conditions {I J : S → Prop} (hJ : J s₀) (hI : I s₀)
    (hstepJ : ∀ e s s', J s → step e s = some s' → J s')
    (hstepI : ∀ e s s', J s → I s → step e s = some s' → (I s' ↔ cond e s)) {es : List E}
    (h : Reaches step anyStep s₀ es s) :
    (∀ fs t, fs <+: es → Reaches step anyStep s₀ fs t → I t) ↔ Reaches step cond s₀ es s := by
  have hiff := invariant_iff_conditions_within hJ hI (fun e s s' hj _ hs => hstepJ e s s' hj hs)
    (fun e s s' hj hi _ hs => hstepI e s s' hj hi hs) h
  exact hiff.trans ⟨fun hr => hr.mono fun _ _ hc => hc.2,
    fun hr => hr.mono fun _ _ hc => ⟨trivial,hc⟩⟩

theorem reaches_of_run {es fs : List E} {s' : S} (h : Reaches step anyStep s₀ es s)
    (hr : run step fs s = some s') : Reaches step anyStep s₀ (es++fs) s' := by
  induction fs generalizing es s with
  | nil => simpa [run] using (Option.some.inj hr) ▸ h
  | cons e fs ih =>
    obtain ⟨t,hs,ht⟩ := Option.bind_eq_some_iff.mp hr
    simpa using ih (.next e h trivial hs) ht

/-- Take the given steps as long as each of them meets the side condition. -/
def runIf (step : E → S → Option S) (cond : E → S → Prop) [∀ e s, Decidable (cond e s)] :
    List E → S → Option S
  | [], s => some s
  | e::es, s => if cond e s then (step e s).bind (runIf step cond es) else none

theorem reaches_of_runIf [∀ e s, Decidable (cond e s)] {es fs : List E} {s' : S}
    (h : Reaches step cond s₀ es s) (hr : runIf step cond fs s = some s') :
    Reaches step cond s₀ (es++fs) s' := by
  induction fs generalizing es s with
  | nil => simpa [runIf] using (Option.some.inj hr) ▸ h
  | cons e fs ih =>
    simp only [runIf] at hr
    split at hr
    · rename_i hc
      cases hs : step e s with
      | none => simp [hs] at hr
      | some t =>
        rw [hs,Option.bind_some] at hr
        simpa using ih (.next e h hc hs) hr
    · simp at hr

/-- Each system keeps to its own side condition. -/
def besideCond (cond : E → S → Prop) (cond' : A → T → Prop) : E ⊕ A → S × T → Prop
  | .inl e, p => cond e p.1
  | .inr a, p => cond' a p.2

instance [∀ e s, Decidable (cond e s)] {condA : A → T → Prop} [∀ a t, Decidable (condA a t)] (x : E ⊕ A)
    (p : S × T) : Decidable (besideCond cond condA x p) := by
  unfold besideCond
  split <;> infer_instance

end Runs
