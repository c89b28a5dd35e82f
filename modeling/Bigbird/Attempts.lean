import Bigbird.Programs

/-! How a single program ends when others may change the world before each of its calls, the
attempts that a retried program consists of, and the calls of one thread in a run of a machine. -/
namespace Programs

variable {Op : Type} {Res : Op → Type} {ε α β W Ch J : Type}

/-- The calls of a program, each with its answer's choice and the world in which it was made. -/
abbrev Trace (W Op Ch : Type) := List (W × Op × Ch)

variable {exec : (op : Op) → Ch → W → Option (Except ε (Res op) × W × Option J)}
  {env : W → W → Prop}

/-- From `w` on the program makes the calls `tr` and ends with `r` in `w'`. -/
inductive Prog.Ends (exec : (op : Op) → Ch → W → Option (Except ε (Res op) × W × Option J))
    (env : W → W → Prop) {α : Type} :
    Prog Op Res ε α → W → Trace W Op Ch → Except ε α → W → Prop
  | ret {a : α} {w : W} : Ends exec env (.ret a) w [] (.ok a) w
  | throw {e : ε} {w : W} : Ends exec env (.throw e) w [] (.error e) w
  | call {op : Op} {k : Except ε (Res op) → Prog Op Res ε α} {w w₁ w₂ w' : W} {choice : Ch}
      {answer : Except ε (Res op)} {new : Option J} {tr : Trace W Op Ch} {r : Except ε α} :
      env w w₁ → exec op choice w₁ = some (answer,w₂,new) → Ends exec env (k answer) w₂ tr r w' →
      Ends exec env (.call op k) w ((w₁,op,choice)::tr) r w'

theorem Prog.Ends.andThen {p : Prog Op Res ε α} {f : Except ε α → Prog Op Res ε β} {w w₁ w' : W}
    {tr tr' : Trace W Op Ch} {r : Except ε α} {r' : Except ε β} (h : p.Ends exec env w tr r w₁)
    (h' : (f r).Ends exec env w₁ tr' r' w') : (p.andThen f).Ends exec env w (tr++tr') r' w' := by
  induction h with
  | ret => exact h'
  | throw => exact h'
  | call henv hexec _ ih => exact .call henv hexec (ih h')

theorem Prog.Ends.op {op : Op} {choice : Ch} {w w₁ w₂ : W} {r : Except ε (Res op)} {new : Option J}
    (henv : env w w₁) (hexec : exec op choice w₁ = some (r,w₂,new)) :
    (Prog.op op).Ends exec env w [(w₁,op,choice)] r w₂ := by
  refine .call henv hexec ?_
  cases r with
  | ok a => exact .ret
  | error e => exact .throw

theorem Prog.Ends.bind_ok {p : Prog Op Res ε α} {f : α → Prog Op Res ε β} {w w₁ w' : W}
    {tr tr' : Trace W Op Ch} {a : α} {r : Except ε β} (h : p.Ends exec env w tr (.ok a) w₁)
    (h' : (f a).Ends exec env w₁ tr' r w') : (p >>= f).Ends exec env w (tr++tr') r w' :=
  Prog.Ends.andThen h h'

theorem Prog.Ends.bind_error {p : Prog Op Res ε α} (f : α → Prog Op Res ε β) {w w' : W}
    {tr : Trace W Op Ch} {e : ε} (h : p.Ends exec env w tr (.error e) w') :
    (p >>= f).Ends exec env w tr (.error e) w' := by
  rw [← List.append_nil tr]
  exact Prog.Ends.andThen h .throw

theorem Prog.Ends.of_andThen {p : Prog Op Res ε α} {f : Except ε α → Prog Op Res ε β} {w w' : W}
    {tr : Trace W Op Ch} {r : Except ε β} (h : (p.andThen f).Ends exec env w tr r w') :
    ∃ tr₁ r₁ w₁ tr₂, tr = tr₁++tr₂ ∧ p.Ends exec env w tr₁ r₁ w₁ ∧ (f r₁).Ends exec env w₁ tr₂ r w' := by
  induction p generalizing w tr with
  | ret a => exact ⟨[],_,w,tr,rfl,.ret,h⟩
  | throw e => exact ⟨[],_,w,tr,rfl,.throw,h⟩
  | call op k ih =>
    cases h with
    | call henv hexec hk =>
      obtain ⟨tr₁,r₁,w₁,tr₂,rfl,h₁,h₂⟩ := ih _ hk
      exact ⟨_,r₁,w₁,tr₂,rfl,.call henv hexec h₁,h₂⟩

/-- The program with these choices for its calls, and with nobody else in between. -/
def Prog.alone (exec : (op : Op) → Ch → W → Option (Except ε (Res op) × W × Option J)) :
    Prog Op Res ε α → List Ch → W → Option (Trace W Op Ch × Except ε α × W)
  | .ret a, [], w => some ([],.ok a,w)
  | .throw e, [], w => some ([],.error e,w)
  | .call op k, choice::choices, w => (exec op choice w).bind fun (r,w',_) =>
    ((k r).alone exec choices w').map fun (tr,x) => ((w,op,choice)::tr,x)
  | _, _, _ => none

theorem Prog.ends_of_alone (hrefl : ∀ w, env w w) {p : Prog Op Res ε α} {choices : List Ch} {w w' : W}
    {tr : Trace W Op Ch} {r : Except ε α} (h : p.alone exec choices w = some (tr,r,w')) :
    p.Ends exec env w tr r w' := by
  induction p generalizing choices w tr with
  | ret a =>
    cases choices with
    | nil => cases h; exact .ret
    | cons choice choices => cases h
  | throw e =>
    cases choices with
    | nil => cases h; exact .throw
    | cons choice choices => cases h
  | call op k ih =>
    cases choices with
    | nil => cases h
    | cons choice choices =>
      obtain ⟨⟨answer,w₁,new⟩,hexec,h⟩ := Option.bind_eq_some_iff.mp h
      obtain ⟨⟨tr',r',w''⟩,hrest,h⟩ := Option.map_eq_some_iff.mp h
      cases h
      exact .call (hrefl w) hexec (ih _ hrest)

/-- Up to `n` attempts of a program, each with its calls and its result, and what the retried
program makes of them. -/
inductive Attempts (exec : (op : Op) → Ch → W → Option (Except ε (Res op) × W × Option J))
    (env : W → W → Prop) (again : ε → Bool) (p : Prog Op Res ε α) :
    ℕ → W → List (Trace W Op Ch × Except ε α) → Except ε (Option α) → W → Prop
  | none {w : W} : Attempts exec env again p 0 w [] (.ok none) w
  | ok {n : ℕ} {w w' : W} {tr : Trace W Op Ch} {a : α} : p.Ends exec env w tr (.ok a) w' →
      Attempts exec env again p (n+1) w [(tr,.ok a)] (.ok (some a)) w'
  | throw {n : ℕ} {w w' : W} {tr : Trace W Op Ch} {e : ε} : p.Ends exec env w tr (.error e) w' →
      again e = false → Attempts exec env again p (n+1) w [(tr,.error e)] (.error e) w'
  | again {n : ℕ} {w w₁ w' : W} {tr : Trace W Op Ch} {e : ε} {rs : List (Trace W Op Ch × Except ε α)}
      {r : Except ε (Option α)} : p.Ends exec env w tr (.error e) w₁ → again e = true →
      Attempts exec env again p n w₁ rs r w' → Attempts exec env again p (n+1) w ((tr,.error e)::rs) r w'

/-- A retried program does nothing but its attempts. -/
theorem ends_retry_iff {again : ε → Bool} {p : Prog Op Res ε α} {n : ℕ} {w w' : W} {tr : Trace W Op Ch}
    {r : Except ε (Option α)} : (p.retry again n).Ends exec env w tr r w' ↔
      ∃ rs, Attempts exec env again p n w rs r w' ∧ tr = (rs.map Prod.fst).flatten := by
  induction n generalizing w tr with
  | zero =>
    constructor
    · rintro ⟨⟩
      exact ⟨[],.none,rfl⟩
    · rintro ⟨_,⟨⟩,rfl⟩
      exact .ret
  | succ n ih =>
    constructor
    · intro h
      obtain ⟨tr₁,r₁,w₁,tr₂,rfl,h₁,h₂⟩ := Prog.Ends.of_andThen h
      cases r₁ with
      | ok a =>
        cases h₂
        exact ⟨_,.ok h₁,by simp⟩
      | error e =>
        change Prog.Ends exec env (if again e then p.retry again n else .throw e) _ _ _ _ at h₂
        by_cases he : again e
        · rw [if_pos he] at h₂
          obtain ⟨rs,hrs,rfl⟩ := ih.mp h₂
          exact ⟨_,.again h₁ he hrs,rfl⟩
        · rw [if_neg he] at h₂
          cases h₂
          exact ⟨_,.throw h₁ (by simpa using he),by simp⟩
    · rintro ⟨rs,hrs,rfl⟩
      cases hrs with
      | ok h => exact Prog.Ends.andThen h .ret
      | throw h he =>
        refine Prog.Ends.andThen h ?_
        change Prog.Ends exec env (if again _ then p.retry again n else .throw _) _ _ _ _
        rw [he]
        exact .throw
      | again h he hrs =>
        refine Prog.Ends.andThen h ?_
        change Prog.Ends exec env (if again _ then p.retry again n else .throw _) _ _ _ _
        rw [if_pos he]
        exact ih.mpr ⟨_,hrs,rfl⟩

def failed (again : ε → Bool) : Except ε α → Bool
  | .ok _ => false
  | .error e => again e

theorem Attempts.failed_iff {again : ε → Bool} {p : Prog Op Res ε α} {n : ℕ} {w w' : W}
    {rs : List (Trace W Op Ch × Except ε α)} {r : Except ε (Option α)}
    (h : Attempts exec env again p n w rs r w') :
    ((∃ o, r = .ok o) → ∃ x ∈ rs, ∃ a, x.2 = .ok a) ↔ (rs.countP fun x => failed again x.2) < n := by
  induction h with
  | none => simp
  | ok h => simp [failed]
  | throw h he => simp [failed,he]
  | again h he _ ih =>
    rw [List.countP_cons_of_pos (by simpa [failed] using he),Nat.add_lt_add_iff_right,← ih]
    simp

/-- The exception `e₀` is thrown by calls only, and it ends the program. -/
def Prog.Passes (e₀ : ε) : Prog Op Res ε α → Prop
  | .ret _ => True
  | .throw e => e ≠ e₀
  | .call _ k => k (.error e₀) = .throw e₀ ∧ ∀ r, r ≠ .error e₀ → (k r).Passes e₀

theorem Prog.Passes.andThen {e₀ : ε} {p : Prog Op Res ε α} {f : Except ε α → Prog Op Res ε β}
    (hp : p.Passes e₀) (hthrow : f (.error e₀) = .throw e₀)
    (hf : ∀ r, r ≠ .error e₀ → (f r).Passes e₀) : (p.andThen f).Passes e₀ := by
  induction p with
  | ret a => exact hf _ (by simp)
  | throw e => exact hf _ fun h => hp (Except.error.inj h)
  | call op k ih =>
    refine ⟨?_,fun r hr => ih r (hp.2 r hr)⟩
    change (k (.error e₀)).andThen f = _
    rw [hp.1]
    exact hthrow

theorem Prog.Passes.bind {e₀ : ε} {p : Prog Op Res ε α} {f : α → Prog Op Res ε β}
    (hp : p.Passes e₀) (hf : ∀ a, (f a).Passes e₀) : (p >>= f).Passes e₀ := by
  refine Prog.Passes.andThen hp rfl fun r hr => ?_
  cases r with
  | ok a => exact hf a
  | error e =>
    change e ≠ e₀
    rintro rfl
    exact hr rfl

theorem Prog.Passes.pure {e₀ : ε} {a : α} : (Pure.pure a : Prog Op Res ε α).Passes e₀ := trivial

theorem Prog.Passes.op {e₀ : ε} {op : Op} : (Prog.op op : Prog Op Res ε _).Passes e₀ := by
  refine ⟨rfl,fun r hr => ?_⟩
  cases r with
  | ok a => trivial
  | error e =>
    change e ≠ e₀
    rintro rfl
    exact hr rfl

/-- The program ends in `e₀` exactly if one of its calls does, which is then the last one;
`raises` is when calls do. -/
theorem Prog.Passes.countP_trace {e₀ : ε} {p : Prog Op Res ε α} (hp : p.Passes e₀)
    {raises : W × Op × Ch → Bool} (hraises : ∀ op choice w r w' new, exec op choice w = some (r,w',new) →
      (raises (w,op,choice) = true ↔ r = .error e₀)) {w w' : W} {tr : Trace W Op Ch} {r : Except ε α}
    (h : p.Ends exec env w tr r w') :
    tr.countP raises = 1 ∧ r = .error e₀ ∨ tr.countP raises = 0 ∧ r ≠ .error e₀ := by
  induction h with
  | ret => exact Or.inr ⟨rfl,by simp⟩
  | throw => exact Or.inr ⟨rfl,fun h => hp (Except.error.inj h)⟩
  | @call op k _ _ _ _ _ answer _ _ _ _ hexec hk ih =>
    have hr := hraises _ _ _ _ _ _ hexec
    by_cases hanswer : answer = .error e₀
    · subst hanswer
      rw [hp.1] at hk
      cases hk
      exact Or.inl ⟨List.countP_cons_of_pos (hr.mpr rfl),rfl⟩
    · rw [List.countP_cons_of_neg fun h => hanswer (hr.mp h)]
      exact ih (hp.2 _ hanswer)

theorem Attempts.countP_flatten {again : ε → Bool} {e₀ : ε} (hagain : ∀ e, again e = true ↔ e = e₀)
    {p : Prog Op Res ε α} (hp : p.Passes e₀) {raises : W × Op × Ch → Bool}
    (hraises : ∀ op choice w r w' new, exec op choice w = some (r,w',new) →
      (raises (w,op,choice) = true ↔ r = .error e₀)) {n : ℕ} {w w' : W}
    {rs : List (Trace W Op Ch × Except ε α)} {r : Except ε (Option α)}
    (h : Attempts exec env again p n w rs r w') :
    (rs.map Prod.fst).flatten.countP raises = rs.countP fun x => failed again x.2 := by
  induction h with
  | none => rfl
  | ok h =>
    obtain ⟨_,h⟩ | ⟨hcount,_⟩ := hp.countP_trace hraises h
    · simp at h
    · simp [hcount,failed]
  | throw h he =>
    obtain ⟨_,h⟩ | ⟨hcount,_⟩ := hp.countP_trace hraises h
    · simp [(hagain _).mpr (Except.error.inj h)] at he
    · simp [hcount,failed,he]
  | again h he _ ih =>
    obtain ⟨hcount,_⟩ | ⟨_,h⟩ := hp.countP_trace hraises h
    · simp [hcount,failed,he,ih,Nat.add_comm]
    · exact absurd (congrArg Except.error ((hagain _).mp he)) h

theorem Prog.All.trace {P : Op → Prop} {p : Prog Op Res ε α} (hp : p.All P) {w w' : W} {tr : Trace W Op Ch}
    {r : Except ε α} (h : p.Ends exec env w tr r w') : ∀ c ∈ tr, P c.2.1 := by
  induction h with
  | ret => simp
  | throw => simp
  | call _ _ _ ih => exact List.forall_mem_cons.mpr ⟨hp.1,ih (hp.2 _)⟩

theorem Prog.Ends.keeps {T : W → W → Prop} (hrefl : ∀ w, T w w) (htrans : ∀ w w' w'', T w w' → T w' w'' → T w w'')
    (henv : ∀ w w', env w w' → T w w')
    (hexec : ∀ op choice w r w' new, exec op choice w = some (r,w',new) → T w w') {p : Prog Op Res ε α} {w w' : W}
    {tr : Trace W Op Ch} {r : Except ε α} (h : p.Ends exec env w tr r w') : T w w' := by
  induction h with
  | ret => exact hrefl _
  | throw => exact hrefl _
  | call he hc _ ih => exact htrans _ _ _ (henv _ _ he) (htrans _ _ _ (hexec _ _ _ _ _ _ hc) ih)

theorem Prog.Ends.of_op_bind {op : Op} {f : Res op → Prog Op Res ε α} {w w' : W} {tr : Trace W Op Ch}
    {r : Except ε α} (h : (Prog.op op >>= f).Ends exec env w tr r w') :
    ∃ w₁ choice answer w₂ new tr', env w w₁ ∧ exec op choice w₁ = some (answer,w₂,new) ∧
      tr = (w₁,op,choice)::tr' ∧ (Prog.onOk f answer).Ends exec env w₂ tr' r w' := by
  obtain ⟨tr₁,r₁,w₁,tr₂,rfl,h₁,h₂⟩ := Prog.Ends.of_andThen h
  cases h₁ with
  | @call op k w w₁ w₂ w' choice answer new tr r henv hexec hk =>
    refine ⟨w₁,choice,answer,w₂,new,_,henv,hexec,rfl,?_⟩
    cases answer with
    | ok a =>
      cases hk
      exact h₂
    | error e =>
      cases hk
      exact h₂

theorem Prog.Ends.of_op {op : Op} {w w' : W} {tr : Trace W Op Ch} {r : Except ε (Res op)}
    (h : (Prog.op op).Ends exec env w tr r w') :
    ∃ w₁ choice new, env w w₁ ∧ exec op choice w₁ = some (r,w',new) ∧ tr = [(w₁,op,choice)] := by
  cases h with
  | @call op k w w₁ w₂ w' choice answer new tr r henv hexec hk =>
    cases answer with
    | ok a =>
      cases hk
      exact ⟨w₁,choice,new,henv,hexec,rfl⟩
    | error e =>
      cases hk
      exact ⟨w₁,choice,new,henv,hexec,rfl⟩

theorem Prog.Ends.of_outcome {p : Prog Op Res ε α} {r : Except ε α} (h : p.outcome = some r) (w : W) :
    p.Ends exec env w [] r w := by
  cases p with
  | ret a =>
    obtain rfl := Option.some.inj h
    exact .ret
  | throw e =>
    obtain rfl := Option.some.inj h
    exact .throw
  | call op k => cases h

theorem Prog.Ends.last_attempt {again : ε → Bool} {p : Prog Op Res ε α} {n : ℕ} {w w' : W} {tr : Trace W Op Ch}
    {a : α} (h : (p.retry again n).Ends exec env w tr (.ok (some a)) w') :
    ∃ tr₁ tr₂ w₁, tr = tr₁++tr₂ ∧ p.Ends exec env w₁ tr₂ (.ok a) w' := by
  induction n generalizing w tr with
  | zero => cases h
  | succ n ih =>
    obtain ⟨tr₁,r₁,w₁,tr₂,rfl,h₁,h₂⟩ := Prog.Ends.of_andThen h
    cases r₁ with
    | ok a =>
      cases h₂
      exact ⟨[],tr₁,w,by simp,h₁⟩
    | error e =>
      change Prog.Ends exec env (if again e then p.retry again n else .throw e) _ _ _ _ at h₂
      by_cases he : again e
      · rw [if_pos he] at h₂
        obtain ⟨tr₃,tr₄,w₂,rfl,h₄⟩ := ih h₂
        exact ⟨tr₁++tr₃,tr₄,w₂,(List.append_assoc _ _ _).symm,h₄⟩
      · rw [if_neg he] at h₂
        cases h₂

theorem Prog.Ends.only_attempt {again : ε → Bool} {p : Prog Op Res ε α} {n : ℕ} {w w' : W} {tr : Trace W Op Ch}
    {r : Except ε (Option α)} (h : (p.retry again (n+1)).Ends exec env w tr r w')
    (hp : ∀ tr₁ r₁ w₁, tr₁ <+: tr → p.Ends exec env w tr₁ r₁ w₁ → ∃ a, r₁ = .ok a) :
    ∃ a, r = .ok (some a) ∧ p.Ends exec env w tr (.ok a) w' := by
  obtain ⟨tr₁,r₁,w₁,tr₂,rfl,h₁,h₂⟩ := Prog.Ends.of_andThen h
  obtain ⟨a,rfl⟩ := hp tr₁ r₁ w₁ (List.prefix_append _ _) h₁
  cases h₂
  exact ⟨a,rfl,by rwa [List.append_nil]⟩

section Keeps

variable {I : W → Prop}

def Prog.Keeps (exec : (op : Op) → Ch → W → Option (Except ε (Res op) × W × Option J)) (env : W → W → Prop)
    (I : W → Prop) (p : Prog Op Res ε α) : Prop :=
  ∀ w tr r w', p.Ends exec env w tr r w' → I w → I w'

theorem Prog.Keeps.andThen {p : Prog Op Res ε α} {f : Except ε α → Prog Op Res ε β} (hp : p.Keeps exec env I)
    (hf : ∀ r, (f r).Keeps exec env I) : (p.andThen f).Keeps exec env I := by
  intro w tr r w' h hw
  obtain ⟨tr₁,r₁,w₁,tr₂,rfl,h₁,h₂⟩ := Prog.Ends.of_andThen h
  exact hf r₁ _ _ _ _ h₂ (hp _ _ _ _ h₁ hw)

theorem Prog.Keeps.ret {a : α} : (Prog.ret a : Prog Op Res ε α).Keeps exec env I := by
  rintro w tr r w' ⟨⟩ hw
  exact hw

theorem Prog.Keeps.throw {e : ε} : (Prog.throw e : Prog Op Res ε α).Keeps exec env I := by
  rintro w tr r w' ⟨⟩ hw
  exact hw

theorem Prog.Keeps.bind {p : Prog Op Res ε α} {f : α → Prog Op Res ε β} (hp : p.Keeps exec env I)
    (hf : ∀ a, (f a).Keeps exec env I) : (p >>= f).Keeps exec env I := by
  refine hp.andThen fun r => ?_
  cases r with
  | ok a => exact hf a
  | error e => exact .throw

theorem Prog.Keeps.retry {again : ε → Bool} {p : Prog Op Res ε α} (hp : p.Keeps exec env I) (n : ℕ) :
    (p.retry again n).Keeps exec env I := by
  induction n with
  | zero => exact .ret
  | succ n ih =>
    refine hp.andThen fun r => ?_
    cases r with
    | ok a => exact .ret
    | error e =>
      change Prog.Keeps exec env I (if again e then p.retry again n else .throw e)
      split
      · exact ih
      · exact .throw

theorem Prog.All.keeps {P : Op → Prop} {p : Prog Op Res ε α} (hp : p.All P) (henv : ∀ w w', env w w' → I w → I w')
    (hexec : ∀ op choice w r w' new, P op → exec op choice w = some (r,w',new) → I w → I w') :
    p.Keeps exec env I := by
  intro w tr r w' h hw
  induction h with
  | ret => exact hw
  | throw => exact hw
  | call he hc _ ih => exact ih (hp.2 _) (hexec _ _ _ _ _ _ hp.1 hc (henv _ _ he hw))

end Keeps

section Blames

variable {fatal : W × Op × Ch → Prop} {bad fine : ε → Prop}

def LastCall (fatal : W × Op × Ch → Prop) (tr : Trace W Op Ch) : Prop := ∃ c ∈ tr.getLast?, fatal c

theorem lastCall_nil : ¬ LastCall fatal ([] : Trace W Op Ch) := by
  simp [LastCall]

theorem lastCall_singleton {c : W × Op × Ch} : LastCall fatal [c] ↔ fatal c := by
  simp [LastCall]

theorem lastCall_append (tr : Trace W Op Ch) {tr' : Trace W Op Ch} (h : tr' ≠ []) : LastCall fatal (tr++tr') ↔ LastCall fatal tr' := by
  rw [LastCall,LastCall,List.getLast?_append_of_ne_nil _ h]

theorem lastCall_cons {c : W × Op × Ch} {tr : Trace W Op Ch} (h : tr ≠ []) :
    LastCall fatal (c::tr) ↔ LastCall fatal tr := lastCall_append [c] h

/-- The bad exceptions are those that come from a fatal call, which is then the last one. -/
def Prog.Blames (exec : (op : Op) → Ch → W → Option (Except ε (Res op) × W × Option J)) (env : W → W → Prop)
    (fatal : W × Op × Ch → Prop) (bad fine : ε → Prop) (p : Prog Op Res ε α) : Prop :=
  ∀ w tr r w', p.Ends exec env w tr r w' → (LastCall fatal tr → ∃ e, r = .error e ∧ bad e) ∧
    (¬ LastCall fatal tr → ∀ e, r = .error e → fine e)

theorem Prog.Blames.ret {a : α} : (Prog.ret a : Prog Op Res ε α).Blames exec env fatal bad fine := by
  rintro w tr r w' ⟨⟩
  exact ⟨fun h => absurd h lastCall_nil,by simp⟩

theorem Prog.Blames.op {op : Op} (h : ∀ choice w r w' new, exec op choice w = some (r,w',new) →
    (fatal (w,op,choice) → ∃ e, r = .error e ∧ bad e) ∧ (¬ fatal (w,op,choice) → ∀ e, r = .error e → fine e)) :
    (Prog.op op : Prog Op Res ε _).Blames exec env fatal bad fine := by
  intro w tr r w' hends
  cases hends with
  | @call _ _ _ _ _ _ _ answer _ _ _ _ hexec hk =>
    have hanswer := h _ _ _ _ _ hexec
    cases answer with
    | ok a =>
      cases hk
      rwa [lastCall_singleton]
    | error e =>
      cases hk
      rw [lastCall_singleton]
      exact ⟨fun hf => by simpa using hanswer.1 hf,fun hf => by simpa using hanswer.2 hf⟩

theorem Prog.Blames.bind {p : Prog Op Res ε α} {f : α → Prog Op Res ε β}
    (hp : p.Blames exec env fatal bad fine) (hf : ∀ a, (f a).Blames exec env fatal bad fine) :
    (p >>= f).Blames exec env fatal bad fine := by
  intro w tr r w' h
  obtain ⟨tr₁,r₁,w₁,tr₂,rfl,h₁,h₂⟩ := Prog.Ends.of_andThen h
  have hfirst := hp _ _ _ _ h₁
  cases r₁ with
  | error e =>
    cases h₂
    rw [List.append_nil]
    exact ⟨fun hl => by simpa using hfirst.1 hl,fun hl => by simpa using hfirst.2 hl⟩
  | ok a =>
    have hrest := hf a _ _ _ _ h₂
    by_cases hnil : tr₂ = []
    · subst hnil
      rw [List.append_nil]
      refine ⟨fun hl => ?_,fun _ => hrest.2 lastCall_nil⟩
      obtain ⟨e,he,_⟩ := hfirst.1 hl
      cases he
    · rwa [lastCall_append tr₁ hnil]

theorem Prog.Blames.retry {again : ε → Bool} {p : Prog Op Res ε α} (hp : p.Blames exec env fatal bad fine)
    (hbad : ∀ e, bad e → again e = false) (hfine : ∀ e, fine e → again e = true) (n : ℕ) :
    (p.retry again n).Blames exec env fatal bad fun _ => False := by
  induction n with
  | zero => exact .ret
  | succ n ih =>
    intro w tr r w' h
    obtain ⟨tr₁,r₁,w₁,tr₂,rfl,h₁,h₂⟩ := Prog.Ends.of_andThen h
    have hfirst := hp _ _ _ _ h₁
    cases r₁ with
    | ok a =>
      cases h₂
      rw [List.append_nil]
      refine ⟨fun hl => ?_,by simp⟩
      obtain ⟨e,he,_⟩ := hfirst.1 hl
      cases he
    | error e =>
      change Prog.Ends exec env (if again e then p.retry again n else .throw e) _ _ _ _ at h₂
      by_cases hlast : LastCall fatal tr₁
      · obtain ⟨e',he',hbad'⟩ := hfirst.1 hlast
        cases he'
        rw [hbad e hbad'] at h₂
        cases h₂
        rw [List.append_nil]
        exact ⟨fun _ => ⟨e,rfl,hbad'⟩,fun hl => absurd hlast hl⟩
      · rw [hfine e (hfirst.2 hlast e rfl)] at h₂
        by_cases hnil : tr₂ = []
        · subst hnil
          rw [List.append_nil]
          exact ⟨fun hl => absurd hl hlast,fun _ => (ih _ _ _ _ h₂).2 lastCall_nil⟩
        · rw [lastCall_append tr₁ hnil]
          exact ih _ _ _ _ h₂

end Blames

section Threads

variable {m : Machine W J Op Res ε Ch α} {s₀ s s' : State W J Op Res ε α} {e : Event J Ch} {es : List (Event J Ch)}
  {C : J → Op → Ch → W → Prop} {i : ℕ} {j : J} {q : Prog Op Res ε α} {tr : Trace W Op Ch}

/-- The call that the event makes, if it is one of thread `i`. -/
def State.callOf (i : ℕ) (s : State W J Op Res ε α) : Event J Ch → Trace W Op Ch
  | .start _ => []
  | .thread k choice => match s.threads[k]? with
    | some (_,.call op _) => if k = i then [(s.world,op,choice)] else []
    | _ => []

/-- The calls that thread `i` makes, one after the other. -/
def Machine.calls (m : Machine W J Op Res ε Ch α) (i : ℕ) : List (Event J Ch) → State W J Op Res ε α → Trace W Op Ch
  | [], _ => []
  | e::es, s => s.callOf i e ++ match m.step e s with
    | some s' => m.calls i es s'
    | none => []

theorem Machine.calls_concat (h : Runs.run m.step es s₀ = some s) :
    m.calls i (es++[e]) s₀ = m.calls i es s₀ ++ s.callOf i e := by
  induction es generalizing s₀ with
  | nil =>
    obtain rfl := Option.some.inj h
    cases hstep : m.step e s₀ <;> simp [Machine.calls,hstep]
  | cons e' es ih =>
    obtain ⟨s₁,hstep,hrest⟩ := Option.bind_eq_some_iff.mp h
    simp [Machine.calls,hstep,ih hrest]

theorem State.callOf_absent (hnone : s.threads[i]? = none) (e : Event J Ch) : s.callOf i e = [] := by
  cases e with
  | start job => rfl
  | thread k choice =>
    simp only [State.callOf]
    split
    · rename_i hk
      have hki : k ≠ i := by
        rintro rfl
        rw [hnone] at hk
        cases hk
      exact if_neg hki
    · rfl

theorem State.callOf_self {op : Op} {k : Except ε (Res op) → Prog Op Res ε α} (h : s.threads[i]? = some (j,.call op k))
    (choice : Ch) : s.callOf i (.thread i choice : Event J Ch) = [(s.world,op,choice)] := by
  simp [State.callOf,h]

/-- Where a thread comes from: it has started, or others have moved on, or it has made a call. -/
theorem Machine.thread_cases (h : m.step e s = some s') (ht : s'.threads[i]? = some (j,q)) :
    (s.threads[i]? = none ∧ q = m.body j) ∨ (s.threads[i]? = some (j,q) ∧ s.callOf i e = []) ∨
    ∃ op k choice r new, s.threads[i]? = some (j,.call op k) ∧ e = .thread i choice ∧
      m.exec j op choice s.world = some (r,s'.world,new) ∧ q = k r := by
  by_cases hnone : s.threads[i]? = none
  · exact Or.inl ⟨hnone,m.body_of_new h hnone ht⟩
  · have hlt : i < s.threads.length := by simpa using hnone
    cases e with
    | start job =>
      obtain rfl := Option.some.inj h
      exact Or.inr (Or.inl ⟨by rwa [List.getElem?_append_left hlt] at ht,rfl⟩)
    | thread k choice =>
      obtain ⟨job,op,f,r,w,new,hk,hexec,rfl⟩ := Machine.thread_step h
      rw [List.getElem?_append_left (by simpa using hlt)] at ht
      by_cases hki : k = i
      · subst hki
        rw [List.getElem?_set_self hlt] at ht
        cases ht
        exact Or.inr (Or.inr ⟨op,f,choice,r,new,hk,rfl,hexec,rfl⟩)
      · rw [List.getElem?_set_ne hki] at ht
        exact Or.inr (Or.inl ⟨ht,by simp [State.callOf,hk,hki]⟩)

theorem Machine.absent_of_step (h : m.step e s = some s') (hnone : s'.threads[i]? = none) : s.threads[i]? = none := by
  rw [List.getElem?_eq_none_iff] at hnone ⊢
  cases e with
  | start job =>
    obtain rfl := Option.some.inj h
    rw [List.length_append] at hnone
    omega
  | thread k choice =>
    obtain ⟨_,_,_,_,_,_,_,_,rfl⟩ := Machine.thread_step h
    rw [List.length_append,List.length_set] at hnone
    omega

/-- The calls `tr` are those that thread `i` has made. The world may have moved on since the last of
them, and whatever the rest of the program does completes a run of the whole. -/
structure Machine.Made (m : Machine W J Op Res ε Ch α) (env : W → W → Prop) (C : J → Op → Ch → W → Prop) (i : ℕ)
    (tr : Trace W Op Ch) (s : State W J Op Res ε α) : Prop where
  absent : s.threads[i]? = none → tr = []
  meets : ∀ j q, s.threads[i]? = some (j,q) → ∀ c ∈ tr, C j c.2.1 c.2.2 c.1
  completes : ∀ j q, s.threads[i]? = some (j,q) → ∃ w₀ w, env w s.world ∧
    ∀ tr' r w', q.Ends (m.exec j) env w tr' r w' → (m.body j).Ends (m.exec j) env w₀ (tr++tr') r w'

theorem Machine.made_step (hrefl : ∀ w, env w w) (htrans : ∀ w w' w'', env w w' → env w' w'' → env w w'')
    (hworld : env s.world s'.world) (hmade : m.Made env C i tr s) (hc : Calls C e s) (h : m.step e s = some s') :
    m.Made env C i (tr ++ s.callOf i e) s' := by
  constructor
  · intro hnone
    have hold := Machine.absent_of_step h hnone
    rw [hmade.absent hold,s.callOf_absent hold,List.append_nil]
  · intro j q ht
    rcases Machine.thread_cases h ht with ⟨hnone,_⟩ | ⟨hsome,hcall⟩ | ⟨op,k,choice,r,new,hsome,rfl,_,_⟩
    · simp [hmade.absent hnone,s.callOf_absent hnone]
    · rw [hcall,List.append_nil]
      exact hmade.meets j q hsome
    · have hnew : C j op choice s.world := by simpa only [Calls,hsome] using hc
      rw [s.callOf_self hsome,List.forall_mem_append]
      exact ⟨hmade.meets j _ hsome,by simpa using hnew⟩
  · intro j q ht
    rcases Machine.thread_cases h ht with ⟨hnone,rfl⟩ | ⟨hsome,hcall⟩ | ⟨op,k,choice,r,new,hsome,rfl,hexec,rfl⟩
    · rw [hmade.absent hnone,s.callOf_absent hnone]
      exact ⟨s'.world,s'.world,hrefl _,fun tr' r w' h => h⟩
    · obtain ⟨w₀,w,hw,hq⟩ := hmade.completes j q hsome
      rw [hcall,List.append_nil]
      exact ⟨w₀,w,htrans _ _ _ hw hworld,hq⟩
    · obtain ⟨w₀,w,hw,hq⟩ := hmade.completes j _ hsome
      refine ⟨w₀,s'.world,hrefl _,fun tr' r' w' hends => ?_⟩
      rw [s.callOf_self hsome,List.append_assoc]
      exact hq _ _ _ (.call hw hexec hends)

/-- The calls that a thread has made when it has ended are a run of its program. -/
theorem Machine.ends_of_outcome {cond : Event J Ch → State W J Op Res ε α → Prop} (hrefl : ∀ w, env w w)
    (htrans : ∀ w w' w'', env w w' → env w' w'' → env w w'')
    (hworld : ∀ e s s', m.step e s = some s' → env s.world s'.world) (hcond : ∀ e s, cond e s → Calls C e s)
    (h : Runs.Reaches m.step cond s₀ es s) (hs₀ : s₀.threads = []) (ht : s.threads[i]? = some (j,q))
    {r : Except ε α} (hr : q.outcome = some r) :
    (∀ c ∈ m.calls i es s₀, C j c.2.1 c.2.2 c.1) ∧ ∃ w₀ w, env w s.world ∧
      (m.body j).Ends (m.exec j) env w₀ (m.calls i es s₀) r w := by
  have hmade : m.Made env C i (m.calls i es s₀) s := by
    clear ht
    induction h with
    | start => exact ⟨fun _ => rfl,by simp [hs₀],by simp [hs₀]⟩
    | next e hreaches hc hs ih =>
      rw [Machine.calls_concat hreaches.run_eq]
      exact Machine.made_step hrefl htrans (hworld _ _ _ hs) ih (hcond _ _ hc) hs
  obtain ⟨w₀,w,hw,hq⟩ := hmade.completes j q ht
  refine ⟨hmade.meets j q ht,w₀,w,hw,?_⟩
  have hends := hq _ _ _ (Prog.Ends.of_outcome hr w)
  rwa [List.append_nil] at hends

end Threads

end Programs
