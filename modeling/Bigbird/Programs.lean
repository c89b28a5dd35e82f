import Bigbird.Runs
import Mathlib.Data.List.Basic

/-! Client programs that run concurrently against a shared world, one call at a time, and
a rely-guarantee logic for them. -/
namespace Programs

/-- A program; every call it makes can end in an exception. -/
inductive Prog (Op : Type) (Res : Op → Type) (ε α : Type) : Type
  | ret (a : α)
  | throw (e : ε)
  | call (op : Op) (k : Except ε (Res op) → Prog Op Res ε α)

variable {Op : Type} {Res : Op → Type} {ε α β : Type}

/-- Go on with the result or the exception of `p`. -/
def Prog.andThen (p : Prog Op Res ε α) (f : Except ε α → Prog Op Res ε β) : Prog Op Res ε β :=
  match p with
  | .ret a => f (.ok a)
  | .throw e => f (.error e)
  | .call op k => .call op fun r => (k r).andThen f

/-- Go on with the result of `p`; an exception ends the program. -/
def Prog.onOk (f : α → Prog Op Res ε β) : Except ε α → Prog Op Res ε β
  | .ok a => f a
  | .error e => .throw e

instance : Monad (Prog Op Res ε) where
  pure := .ret
  bind p f := p.andThen (Prog.onOk f)

theorem Prog.andThen_assoc (p : Prog Op Res ε α) {γ : Type} (f : Except ε α → Prog Op Res ε β)
    (g : Except ε β → Prog Op Res ε γ) : (p.andThen f).andThen g = p.andThen fun r => (f r).andThen g := by
  induction p with
  | ret a => rfl
  | throw e => rfl
  | call op k ih => exact congrArg (Prog.call op) (funext ih)

instance : LawfulMonad (Prog Op Res ε) := LawfulMonad.mk' _
  (fun p => by
    change p.andThen (Prog.onOk fun a => .ret a) = p
    induction p with
    | ret a => rfl
    | throw e => rfl
    | call op k ih => exact congrArg (Prog.call op) (funext ih))
  (fun _ _ => rfl)
  (fun p f g => by
    change (p.andThen (Prog.onOk f)).andThen (Prog.onOk g) = p.andThen (Prog.onOk fun a => f a >>= g)
    rw [Prog.andThen_assoc]
    congr 1
    funext r
    cases r with
    | ok a => rfl
    | error e => rfl)

def Prog.op (op : Op) : Prog Op Res ε (Res op) :=
  .call op fun
    | .ok a => .ret a
    | .error e => .throw e

/-- Make up to `n` attempts, where the exceptions in `again` lead to the next one. -/
def Prog.retry (again : ε → Bool) (p : Prog Op Res ε α) : ℕ → Prog Op Res ε (Option α)
  | 0 => .ret none
  | n+1 => p.andThen fun
    | .ok a => .ret (some a)
    | .error e => if again e then p.retry again n else .throw e

/-- Run the program on its own; `answer` is what its calls do. -/
def Prog.eval {W : Type} (answer : (op : Op) → W → Except ε (Res op) × W) :
    Prog Op Res ε α → W → Except ε α × W
  | .ret a, w => (.ok a,w)
  | .throw e, w => (.error e,w)
  | .call op k, w => (k (answer op w).1).eval answer (answer op w).2

def Prog.calls {W : Type} (answer : (op : Op) → W → Except ε (Res op) × W) :
    Prog Op Res ε α → W → List Op
  | .ret _, _ => []
  | .throw _, _ => []
  | .call op k, w => op::(k (answer op w).1).calls answer (answer op w).2

theorem Prog.eval_andThen {W : Type} (answer : (op : Op) → W → Except ε (Res op) × W)
    (p : Prog Op Res ε α) (f : Except ε α → Prog Op Res ε β) (w : W) :
    (p.andThen f).eval answer w = (f (p.eval answer w).1).eval answer (p.eval answer w).2 := by
  induction p generalizing w with
  | ret a => rfl
  | throw e => rfl
  | call op k ih => exact ih _ _

theorem Prog.eval_bind {W : Type} (answer : (op : Op) → W → Except ε (Res op) × W)
    (p : Prog Op Res ε α) (f : α → Prog Op Res ε β) (w : W) :
    (p >>= f).eval answer w =
      (Prog.onOk f (p.eval answer w).1).eval answer (p.eval answer w).2 :=
  Prog.eval_andThen answer p (Prog.onOk f) w

theorem Prog.eval_op {W : Type} (answer : (op : Op) → W → Except ε (Res op) × W) (op : Op) (w : W) :
    (Prog.op op).eval answer w = answer op w := by
  rw [Prog.op,Prog.eval]
  cases answer op w with
  | mk r w' => cases r <;> rfl

theorem Prog.eval_retry_ok {W : Type} {answer : (op : Op) → W → Except ε (Res op) × W}
    {again : ε → Bool} {p : Prog Op Res ε α} {a : α} {w w' : W} (h : p.eval answer w = (.ok a,w'))
    (n : ℕ) : (p.retry again (n+1)).eval answer w = (.ok (some a),w') := by
  rw [Prog.retry,Prog.eval_andThen,h]
  rfl

theorem Prog.eval_retry_error {W : Type} {answer : (op : Op) → W → Except ε (Res op) × W}
    {again : ε → Bool} {p : Prog Op Res ε α} {e : ε} {w w' : W} (h : p.eval answer w = (.error e,w'))
    (he : again e = false) (n : ℕ) : (p.retry again (n+1)).eval answer w = (.error e,w') := by
  rw [Prog.retry,Prog.eval_andThen,h]
  simp only [he]
  rfl

theorem Prog.eval_retry_again {W : Type} {answer : (op : Op) → W → Except ε (Res op) × W}
    {again : ε → Bool} {p : Prog Op Res ε α} {I : W → Prop}
    (hp : ∀ w, I w → ∃ e w', p.eval answer w = (.error e,w') ∧ again e = true ∧ I w') {w : W} (hw : I w)
    (n : ℕ) : ∃ w', (p.retry again n).eval answer w = (.ok none,w') ∧ I w' := by
  induction n generalizing w with
  | zero => exact ⟨w,rfl,hw⟩
  | succ n ih =>
    obtain ⟨e,w',he,hagain,hw'⟩ := hp w hw
    obtain ⟨w'',hn,hw''⟩ := ih hw'
    refine ⟨w'',?_,hw''⟩
    rw [Prog.retry,Prog.eval_andThen,he]
    simpa only [hagain,if_true] using hn

/-- All calls that the program can come to satisfy `P`. -/
def Prog.All (P : Op → Prop) : Prog Op Res ε α → Prop
  | .ret _ => True
  | .throw _ => True
  | .call op k => P op ∧ ∀ r, (k r).All P

theorem Prog.All.andThen {P : Op → Prop} {p : Prog Op Res ε α} {f : Except ε α → Prog Op Res ε β}
    (hp : p.All P) (hf : ∀ r, (f r).All P) : (p.andThen f).All P := by
  induction p with
  | ret a => exact hf _
  | throw e => exact hf _
  | call op k ih => exact ⟨hp.1,fun r => ih r (hp.2 r)⟩

theorem Prog.All.bind {P : Op → Prop} {p : Prog Op Res ε α} {f : α → Prog Op Res ε β}
    (hp : p.All P) (hf : ∀ a, (f a).All P) : (p >>= f).All P := by
  refine hp.andThen fun r => ?_
  cases r with
  | ok a => exact hf a
  | error e => trivial

theorem Prog.All.mono {P P' : Op → Prop} {p : Prog Op Res ε α} (h : p.All P) (hP : ∀ op, P op → P' op) :
    p.All P' := by
  induction p with
  | ret a => trivial
  | throw e => trivial
  | call op k ih => exact ⟨hP op h.1,fun r => ih r (h.2 r)⟩

theorem Prog.All.pure {P : Op → Prop} {a : α} : (Pure.pure a : Prog Op Res ε α).All P := trivial

theorem Prog.All.op {P : Op → Prop} {op : Op} (h : P op) : (Prog.op op : Prog Op Res ε _).All P :=
  ⟨h,fun r => by cases r <;> trivial⟩

theorem Prog.All.retry {P : Op → Prop} {again : ε → Bool} {p : Prog Op Res ε α} (hp : p.All P)
    (n : ℕ) : (p.retry again n).All P := by
  induction n with
  | zero => trivial
  | succ n ih =>
    refine hp.andThen fun r => ?_
    cases r with
    | ok a => trivial
    | error e =>
      change Prog.All P (if again e then p.retry again n else .throw e)
      split
      · exact ih
      · trivial

/-- All calls that the program can come to with these answers satisfy `P`. -/
def Prog.AllWith (answers : (op : Op) → Except ε (Res op) → Prop) (P : Op → Prop) : Prog Op Res ε α → Prop
  | .ret _ => True
  | .throw _ => True
  | .call op k => P op ∧ ∀ r, answers op r → (k r).AllWith answers P

section AllWith

variable {answers : (op : Op) → Except ε (Res op) → Prop} {P : Op → Prop}

theorem Prog.All.allWith {p : Prog Op Res ε α} (h : p.All P) : p.AllWith answers P := by
  induction p with
  | ret a => trivial
  | throw e => trivial
  | call op k ih => exact ⟨h.1,fun r _ => ih r (h.2 r)⟩

theorem Prog.allWith_of_forall (hP : ∀ op, P op) (p : Prog Op Res ε α) : p.AllWith answers P := by
  induction p with
  | ret a => trivial
  | throw e => trivial
  | call op k ih => exact ⟨hP op,fun r _ => ih r⟩

theorem Prog.AllWith.andThen {p : Prog Op Res ε α} {f : Except ε α → Prog Op Res ε β}
    (hp : p.AllWith answers P) (hf : ∀ r, (f r).AllWith answers P) : (p.andThen f).AllWith answers P := by
  induction p with
  | ret a => exact hf _
  | throw e => exact hf _
  | call op k ih => exact ⟨hp.1,fun r hr => ih r (hp.2 r hr)⟩

theorem Prog.AllWith.bind {p : Prog Op Res ε α} {f : α → Prog Op Res ε β} (hp : p.AllWith answers P)
    (hf : ∀ a, (f a).AllWith answers P) : (p >>= f).AllWith answers P := by
  refine hp.andThen fun r => ?_
  cases r with
  | ok a => exact hf a
  | error e => trivial

theorem Prog.AllWith.pure {a : α} : (Pure.pure a : Prog Op Res ε α).AllWith answers P := trivial

theorem Prog.AllWith.op_bind {op : Op} {f : Res op → Prog Op Res ε α} (hop : P op)
    (hf : ∀ a, answers op (.ok a) → (f a).AllWith answers P) : (Prog.op op >>= f).AllWith answers P := by
  refine ⟨hop,fun r hr => ?_⟩
  cases r with
  | ok a => exact hf a hr
  | error e => trivial

theorem Prog.AllWith.retry {again : ε → Bool} {p : Prog Op Res ε α} (hp : p.AllWith answers P) (n : ℕ) :
    (p.retry again n).AllWith answers P := by
  induction n with
  | zero => trivial
  | succ n ih =>
    refine hp.andThen fun r => ?_
    cases r with
    | ok a => trivial
    | error e =>
      change Prog.AllWith answers P (if again e then p.retry again n else .throw e)
      split
      · exact ih
      · trivial

end AllWith

/-- What calls do to the world and which job they hand to an executor; `J` names the
programs that threads run. -/
structure Machine (W J Op : Type) (Res : Op → Type) (ε Ch α : Type) where
  exec : J → (op : Op) → Ch → W → Option (Except ε (Res op) × W × Option J)
  body : J → Prog Op Res ε α

variable {W J Ch : Type}

structure State (W J Op : Type) (Res : Op → Type) (ε α : Type) where
  world : W
  threads : List (J × Prog Op Res ε α)

/-- A job arrives, or thread `i` makes its next call, which is answered as `choice` says. -/
inductive Event (J Ch : Type)
  | start (job : J)
  | thread (i : ℕ) (choice : Ch)

def Machine.step (m : Machine W J Op Res ε Ch α) :
    Event J Ch → State W J Op Res ε α → Option (State W J Op Res ε α)
  | .start job, s => some ⟨s.world,s.threads ++ [(job,m.body job)]⟩
  | .thread i choice, s => match s.threads[i]? with
    | some (job,.call op k) => (m.exec job op choice s.world).map fun (r,w,new) =>
        ⟨w,s.threads.set i (job,k r) ++ new.toList.map fun job => (job,m.body job)⟩
    | _ => none

/-- What a thread event does. -/
theorem Machine.thread_step {m : Machine W J Op Res ε Ch α} {i : ℕ} {choice : Ch}
    {s s' : State W J Op Res ε α} (h : m.step (.thread i choice) s = some s') :
    ∃ job op k r w new, s.threads[i]? = some (job,.call op k) ∧
      m.exec job op choice s.world = some (r,w,new) ∧
      s' = ⟨w,s.threads.set i (job,k r) ++ new.toList.map fun job => (job,m.body job)⟩ := by
  simp only [Machine.step] at h
  split at h
  · rename_i job op k ht
    obtain ⟨⟨r,w,new⟩,hexec,rfl⟩ := Option.map_eq_some_iff.mp h
    exact ⟨job,op,k,r,w,new,ht,hexec,rfl⟩
  · simp at h

theorem map_fst_set {τ : Type} {ts : List (J × τ)} {i : ℕ} {job : J} {x y : τ}
    (h : ts[i]? = some (job,x)) : (ts.set i (job,y)).map Prod.fst = ts.map Prod.fst := by
  rw [List.map_set]
  refine List.ext_getElem? fun k => ?_
  by_cases hik : i = k
  · subst hik
    simp [List.getElem?_set_self',h]
  · rw [List.getElem?_set_ne hik]

theorem Machine.mem_jobs_step {m : Machine W J Op Res ε Ch α} {e : Event J Ch}
    {s s' : State W J Op Res ε α} (h : m.step e s = some s') {job : J}
    (hjob : job ∈ s.threads.map Prod.fst) : job ∈ s'.threads.map Prod.fst := by
  cases e with
  | start job' =>
    obtain rfl := Option.some.inj h
    rw [List.map_append]
    exact List.mem_append_left _ hjob
  | thread i choice =>
    obtain ⟨job',op,k,r,w,new,ht,_,rfl⟩ := Machine.thread_step h
    rw [List.map_append,map_fst_set ht]
    exact List.mem_append_left _ hjob

theorem Machine.body_of_new {m : Machine W J Op Res ε Ch α} {e : Event J Ch} {s s' : State W J Op Res ε α}
    (h : m.step e s = some s') {n : ℕ} {t : J × Prog Op Res ε α} (hnone : s.threads[n]? = none)
    (ht : s'.threads[n]? = some t) : t.2 = m.body t.1 := by
  have hlength := List.getElem?_eq_none_iff.mp hnone
  cases e with
  | start job =>
    obtain rfl := Option.some.inj h
    rw [List.getElem?_append_right hlength] at ht
    obtain rfl := List.mem_singleton.mp (List.mem_of_getElem? ht)
    rfl
  | thread i choice =>
    obtain ⟨job,op,k,r,w,new,_,_,rfl⟩ := Machine.thread_step h
    rw [List.getElem?_append_right (by simpa using hlength)] at ht
    obtain ⟨job',_,rfl⟩ := List.mem_map.mp (List.mem_of_getElem? ht)
    rfl

/-- Assertions about the jobs of a machine. A thread relies on `rely` between its calls and
guarantees `guar` of each of them; `cond` is what a run assumes of its calls, and jobs that
are `apart` may run at the same time. -/
structure Logic (m : Machine W J Op Res ε Ch α) where
  inv : W → Prop
  rely : J → W → W → Prop
  guar : J → W → W → Prop
  cond : J → Op → Ch → W → Prop
  pre : J → W → Prop
  post : J → Except ε α → W → Prop
  apart : J → J → Prop
  rely_refl : ∀ j w, rely j w w
  rely_trans : ∀ j w w' w'', rely j w w' → rely j w' w'' → rely j w w''
  rely_of_guar : ∀ j j' w w', apart j j' → guar j w w' → rely j' w w'
  apart_symm : ∀ j j', apart j j' → apart j' j

variable {m : Machine W J Op Res ε Ch α}

/-- From the world `w` on, whatever the other threads do between its calls, the program
keeps the invariant and the guarantee of its job and ends as `Q` says. -/
def Logic.wp {γ : Type} (L : Logic m) (j : J) :
    Prog Op Res ε γ → (Except ε γ → W → Prop) → W → Prop
  | .ret a, Q, w => ∀ w', L.inv w' → L.rely j w w' → Q (.ok a) w'
  | .throw e, Q, w => ∀ w', L.inv w' → L.rely j w w' → Q (.error e) w'
  | .call op k, Q, w => ∀ w', L.inv w' → L.rely j w w' → ∀ choice r w'' new,
      L.cond j op choice w' → m.exec j op choice w' = some (r,w'',new) →
      L.inv w'' ∧ L.guar j w' w'' ∧
      (∀ u ∈ new, L.pre u w'' ∧ L.apart j u ∧ ∀ i, L.apart i j → L.apart i u) ∧
      L.wp j (k r) Q w''

variable {L : Logic m} {j : J} {γ δ : Type}

theorem Logic.wp_mono {p : Prog Op Res ε γ} {Q Q' : Except ε γ → W → Prop} {w : W}
    (h : L.wp j p Q w) (hQ : ∀ r w, L.inv w → Q r w → Q' r w) : L.wp j p Q' w := by
  induction p generalizing w with
  | ret a => exact fun w' hi hr => hQ _ _ hi (h w' hi hr)
  | throw e => exact fun w' hi hr => hQ _ _ hi (h w' hi hr)
  | call op k ih =>
    intro w' hi hr choice r w'' new hc hexec
    obtain ⟨hi'',hg,hnew,hk⟩ := h w' hi hr choice r w'' new hc hexec
    exact ⟨hi'',hg,hnew,ih r hk⟩

theorem Logic.wp_rely {p : Prog Op Res ε γ} {Q : Except ε γ → W → Prop} {w w' : W}
    (h : L.wp j p Q w) (hr : L.rely j w w') : L.wp j p Q w' := by
  cases p with
  | ret a => exact fun w'' hi hr' => h w'' hi (L.rely_trans _ _ _ _ hr hr')
  | throw e => exact fun w'' hi hr' => h w'' hi (L.rely_trans _ _ _ _ hr hr')
  | call op k => exact fun w'' hi hr' => h w'' hi (L.rely_trans _ _ _ _ hr hr')

theorem Logic.wp_of_rely {p : Prog Op Res ε γ} {Q : Except ε γ → W → Prop} {w : W}
    (h : ∀ w', L.inv w' → L.rely j w w' → L.wp j p Q w') : L.wp j p Q w := by
  cases p with
  | ret a => exact fun w' hi hr => h w' hi hr w' hi (L.rely_refl _ _)
  | throw e => exact fun w' hi hr => h w' hi hr w' hi (L.rely_refl _ _)
  | call op k => exact fun w' hi hr => h w' hi hr w' hi (L.rely_refl _ _)

theorem Logic.wp_andThen {p : Prog Op Res ε γ} {f : Except ε γ → Prog Op Res ε δ}
    {Q : Except ε δ → W → Prop} {w : W} (h : L.wp j p (fun r w => L.wp j (f r) Q w) w) :
    L.wp j (p.andThen f) Q w := by
  induction p generalizing w with
  | ret a => exact L.wp_of_rely fun w' hi hr => h w' hi hr
  | throw e => exact L.wp_of_rely fun w' hi hr => h w' hi hr
  | call op k ih =>
    intro w' hi hr choice r w'' new hc hexec
    obtain ⟨hi'',hg,hnew,hk⟩ := h w' hi hr choice r w'' new hc hexec
    exact ⟨hi'',hg,hnew,ih r hk⟩

theorem Logic.wp_stable {p : Prog Op Res ε γ} {Q : Except ε γ → W → Prop} {w : W}
    (h : L.wp j p Q w) :
    L.wp j p (fun r w => ∀ w', L.inv w' → L.rely j w w' → Q r w') w := by
  induction p generalizing w with
  | ret a => exact fun w' _ hr w'' hi hr' => h w'' hi (L.rely_trans _ _ _ _ hr hr')
  | throw e => exact fun w' _ hr w'' hi hr' => h w'' hi (L.rely_trans _ _ _ _ hr hr')
  | call op k ih =>
    intro w' hi hr choice r w'' new hc hexec
    obtain ⟨hi'',hg,hnew,hk⟩ := h w' hi hr choice r w'' new hc hexec
    exact ⟨hi'',hg,hnew,ih r hk⟩

theorem Logic.wp_bind {p : Prog Op Res ε γ} {f : γ → Prog Op Res ε δ} {Q : Except ε δ → W → Prop}
    {w : W} (h : L.wp j p (fun r w => L.wp j (Prog.onOk f r) Q w) w) : L.wp j (p >>= f) Q w :=
  L.wp_andThen h

/-- Rely and guarantee of a thread add up to any order that contains both. -/
theorem Logic.wp_since {T : W → W → Prop} (htrans : ∀ w w' w'', T w w' → T w' w'' → T w w'')
    (hrely : ∀ w w', L.rely j w w' → T w w') (hguar : ∀ w w', L.guar j w w' → T w w')
    {p : Prog Op Res ε γ} {Q : Except ε γ → W → Prop} {w : W} (h : L.wp j p Q w) :
    L.wp j p (fun r w' => T w w' ∧ Q r w') w := by
  induction p generalizing w with
  | ret a => exact fun w' hi hr => ⟨hrely _ _ hr,h w' hi hr⟩
  | throw e => exact fun w' hi hr => ⟨hrely _ _ hr,h w' hi hr⟩
  | call op k ih =>
    intro w' hi hr choice r w'' new hc hexec
    obtain ⟨hi'',hg,hnew,hk⟩ := h w' hi hr choice r w'' new hc hexec
    refine ⟨hi'',hg,hnew,L.wp_mono (ih r hk) fun r w _ hQ => ⟨?_,hQ.2⟩⟩
    exact htrans _ _ _ (htrans _ _ _ (hrely _ _ hr) (hguar _ _ hg)) hQ.1

theorem Logic.wp_ret {a : γ} {Q : Except ε γ → W → Prop} {w : W}
    (h : ∀ w', L.inv w' → L.rely j w w' → Q (.ok a) w') : L.wp j (.ret a) Q w := h

theorem Logic.wp_throw {e : ε} {Q : Except ε γ → W → Prop} {w : W}
    (h : ∀ w', L.inv w' → L.rely j w w' → Q (.error e) w') : L.wp j (.throw e) Q w := h

structure Logic.Call (L : Logic m) (j : J) (w w' : W) (new : Option J) : Prop where
  inv : L.inv w'
  guar : L.guar j w w'
  new : ∀ u ∈ new, L.pre u w' ∧ L.apart j u ∧ ∀ i, L.apart i j → L.apart i u

theorem Logic.wp_op {op : Op} {f : Res op → Prog Op Res ε γ} {Q : Except ε γ → W → Prop} {w : W}
    (h : ∀ w', L.inv w' → L.rely j w w' → ∀ choice r w'' new,
      L.cond j op choice w' → m.exec j op choice w' = some (r,w'',new) →
      L.Call j w' w'' new ∧ L.wp j (Prog.onOk f r) Q w'') :
    L.wp j (Prog.op op >>= f) Q w := by
  intro w' hi hr choice r w'' new hc hexec
  obtain ⟨hcall,hwp⟩ := h w' hi hr choice r w'' new hc hexec
  refine ⟨hcall.inv,hcall.guar,hcall.new,?_⟩
  cases r with
  | ok a => exact hwp
  | error e => exact hwp

/-- Attempts: `P n` is known when `n` more of them are left. -/
theorem Logic.wp_retry {again : ε → Bool} {p : Prog Op Res ε γ}
    {Q : Except ε (Option γ) → W → Prop} (P : ℕ → W → Prop)
    (hnone : ∀ w, L.inv w → P 0 w → Q (.ok none) w)
    (hrely : ∀ w w', L.inv w' → L.rely j w w' → P 0 w → P 0 w')
    (hstep : ∀ n w, P (n+1) w → L.wp j p (fun
      | .ok a, w => Q (.ok (some a)) w
      | .error e, w => if again e then P n w else Q (.error e) w) w)
    {n : ℕ} {w : W} (h : P n w) : L.wp j (p.retry again n) Q w := by
  induction n generalizing w with
  | zero => exact L.wp_ret fun w' hi hr => hnone w' hi (hrely w w' hi hr h)
  | succ n ih =>
    refine L.wp_andThen (L.wp_mono (L.wp_stable (hstep n w h)) fun r w hi hQ => ?_)
    cases r with
    | ok a => exact L.wp_ret hQ
    | error e =>
      change L.wp j (if again e then p.retry again n else .throw e) Q w
      by_cases he : again e
      · rw [if_pos he]
        have hn := hQ w hi (L.rely_refl j w)
        simp only [if_pos he] at hn
        exact ih hn
      · rw [if_neg he]
        refine L.wp_throw fun w' hi' hr => ?_
        have hn := hQ w' hi' hr
        simpa only [if_neg he] using hn

theorem Logic.wp_retry_once {again : ε → Bool} {p : Prog Op Res ε γ} {A : W → Prop} {n : ℕ} {w : W}
    (h : L.wp j p (fun r w => (∀ e, r = .error e → again e = false) ∧ A w) w) :
    L.wp j (p.retry again (n+1)) (fun _ w => A w) w := by
  refine L.wp_andThen (L.wp_mono (L.wp_stable h) fun r w hi hA => ?_)
  cases r with
  | ok a => exact L.wp_ret fun w' hi' hr => (hA w' hi' hr).2
  | error e =>
    have he := (hA w hi (L.rely_refl j w)).1 e rfl
    simp only [he,Bool.false_eq_true,if_false]
    exact L.wp_throw fun w' hi' hr => (hA w' hi' hr).2

theorem Logic.wp_retry_ok {again : ε → Bool} {p : Prog Op Res ε γ} {A : W → Prop} {n : ℕ} {w : W}
    (h : L.wp j p (fun r w => (∃ a, r = .ok a) ∧ A w) w) :
    L.wp j (p.retry again (n+1)) (fun _ w => A w) w := by
  refine Logic.wp_retry_once (L.wp_mono h fun r w _ hA => ⟨fun e he => ?_,hA.2⟩)
  obtain ⟨a,ha⟩ := hA.1
  simp [ha] at he

theorem Logic.wp_map {p : Prog Op Res ε γ} {f : γ → δ} {A : W → Prop} {w : W}
    (h : L.wp j p (fun _ w => A w) w) : L.wp j (p >>= fun a => pure (f a)) (fun _ w => A w) w := by
  refine L.wp_bind (L.wp_mono (L.wp_stable h) fun r w _ hA => ?_)
  cases r with
  | ok a => exact L.wp_ret hA
  | error e => exact L.wp_throw hA

theorem Logic.wp_all {P : Op → Prop} {A : W → Prop} {p : Prog Op Res ε γ} {w : W} (hp : p.All P)
    (hrely : ∀ w w', L.inv w' → L.rely j w w' → A w → A w')
    (hop : ∀ op, P op → ∀ w, L.inv w → A w → ∀ choice r w' new,
      L.cond j op choice w → m.exec j op choice w = some (r,w',new) → L.Call j w w' new ∧ A w')
    (hA : A w) : L.wp j p (fun _ w => A w) w := by
  induction p generalizing w with
  | ret a => exact fun w' hi hr => hrely w w' hi hr hA
  | throw e => exact fun w' hi hr => hrely w w' hi hr hA
  | call op k ih =>
    intro w' hi hr choice r w'' new hc hexec
    obtain ⟨hcall,hA'⟩ := hop op hp.1 w' hi (hrely w w' hi hr hA) choice r w'' new hc hexec
    exact ⟨hcall.inv,hcall.guar,hcall.new,ih r (hp.2 r) hA'⟩

def Logic.Admits (L : Logic m) (e : Event J Ch) (s : State W J Op Res ε α) : Prop :=
  match e with
  | .start job => L.pre job s.world ∧ ∀ t ∈ s.threads, L.apart t.1 job
  | .thread i choice => ∀ job op k, s.threads[i]? = some (job,.call op k) →
      L.cond job op choice s.world

theorem Logic.wp_frame {P : Op → Prop} {A : W → Prop} {p : Prog Op Res ε γ}
    {Q : Except ε γ → W → Prop} {w : W} (h : L.wp j p Q w) (hp : p.All P)
    (hrely : ∀ w w', L.rely j w w' → A w → A w')
    (hop : ∀ op, P op → ∀ w choice r w' new, m.exec j op choice w = some (r,w',new) → A w → A w')
    (hA : A w) : L.wp j p (fun r w => Q r w ∧ A w) w := by
  induction p generalizing w with
  | ret a => exact fun w' hi hr => ⟨h w' hi hr,hrely w w' hr hA⟩
  | throw e => exact fun w' hi hr => ⟨h w' hi hr,hrely w w' hr hA⟩
  | call op k ih =>
    intro w' hi hr choice r w'' new hc hexec
    obtain ⟨hi'',hg,hnew,hk⟩ := h w' hi hr choice r w'' new hc hexec
    exact ⟨hi'',hg,hnew,ih r hk (hp.2 r) (hop op hp.1 w' choice r w'' new hexec (hrely w w' hr hA))⟩

/-- A condition on the calls of a run; jobs may start at any time. -/
def Calls (cond : J → Op → Ch → W → Prop) (e : Event J Ch) (s : State W J Op Res ε α) : Prop :=
  match e with
  | .start _ => True
  | .thread i choice => match s.threads[i]? with
    | some (job,.call op _) => cond job op choice s.world
    | _ => True

theorem Calls.mono {cond cond' : J → Op → Ch → W → Prop} {e : Event J Ch} {s : State W J Op Res ε α}
    (h : Calls cond e s) (hcond : ∀ j op choice w, cond j op choice w → cond' j op choice w) :
    Calls cond' e s := by
  cases e with
  | start job => trivial
  | thread i choice =>
    simp only [Calls] at h ⊢
    split
    · rename_i ht
      simp only [ht] at h
      exact hcond _ _ _ _ h
    · trivial

theorem calls_true (e : Event J Ch) (s : State W J Op Res ε α) : Calls (fun _ _ _ _ => True) e s := by
  unfold Calls
  split
  · trivial
  · split <;> trivial

instance (cond : J → Op → Ch → W → Prop) [∀ j op choice w, Decidable (cond j op choice w)]
    (e : Event J Ch) (s : State W J Op Res ε α) : Decidable (Calls cond e s) := by
  unfold Calls
  split
  · infer_instance
  · split <;> infer_instance

/-- A condition on the calls of a run in which no further job starts. -/
def ClosedCalls (cond : J → Op → Ch → W → Prop) (e : Event J Ch) (s : State W J Op Res ε α) : Prop :=
  match e with
  | .start _ => False
  | .thread _ _ => Calls cond e s

instance (cond : J → Op → Ch → W → Prop) [∀ j op choice w, Decidable (cond j op choice w)]
    (e : Event J Ch) (s : State W J Op Res ε α) : Decidable (ClosedCalls cond e s) := by
  unfold ClosedCalls
  split <;> infer_instance

theorem ClosedCalls.admits {e : Event J Ch} {s : State W J Op Res ε α}
    (h : ClosedCalls L.cond e s) : L.Admits e s := by
  cases e with
  | start job => exact h.elim
  | thread i choice =>
    intro job op k ht
    simpa only [ClosedCalls,Calls,ht] using h

/-- All threads are on the way their assertions describe. -/
structure Logic.Good (L : Logic m) (s : State W J Op Res ε α) : Prop where
  inv : L.inv s.world
  threads : ∀ t ∈ s.threads, L.wp t.1 t.2 (L.post t.1) s.world
  apart : (s.threads.map Prod.fst).Pairwise L.apart

theorem mem_set_append {τ : Type} {ts new : List τ} {i : ℕ} {t u : τ}
    (h : u ∈ ts.set i t ++ new) : (∃ k, k ≠ i ∧ ts[k]? = some u) ∨ u = t ∨ u ∈ new := by
  rcases List.mem_append.mp h with h | h
  · obtain ⟨k,hk⟩ := List.mem_iff_getElem?.mp h
    by_cases hki : i = k
    · subst hki
      rw [List.getElem?_set_self'] at hk
      obtain ⟨_,_,rfl⟩ := Option.map_eq_some_iff.mp hk
      exact Or.inr (Or.inl rfl)
    · rw [List.getElem?_set_ne hki] at hk
      exact Or.inl ⟨k,Ne.symm hki,hk⟩
  · exact Or.inr (Or.inr h)

theorem Logic.apart_of_getElem? {js : List J} (h : js.Pairwise L.apart) {i k : ℕ} {a b : J}
    (hik : k ≠ i) (hi : js[i]? = some a) (hk : js[k]? = some b) : L.apart a b := by
  obtain ⟨hil,rfl⟩ := List.getElem?_eq_some_iff.mp hi
  obtain ⟨hkl,rfl⟩ := List.getElem?_eq_some_iff.mp hk
  rw [List.pairwise_iff_getElem] at h
  rcases Nat.lt_or_gt_of_ne hik with hlt | hlt
  · exact L.apart_symm _ _ (h k i hkl hil hlt)
  · exact h i k hil hkl hlt

/-- One step keeps all threads on their way. -/
theorem Logic.good_step (hbody : ∀ j w, L.inv w → L.pre j w → L.wp j (m.body j) (L.post j) w)
    {e : Event J Ch} {s s' : State W J Op Res ε α} (hs : L.Good s) (ha : L.Admits e s)
    (h : m.step e s = some s') : L.Good s' := by
  cases e with
  | start job =>
    obtain rfl := Option.some.inj h
    refine ⟨hs.inv,fun t ht => ?_,?_⟩
    · rcases List.mem_append.mp ht with ht | ht
      · exact hs.threads t ht
      · obtain rfl := List.mem_singleton.mp ht
        exact hbody job s.world hs.inv ha.1
    · simp only [List.map_append,List.map_cons,List.map_nil]
      refine List.pairwise_append.mpr ⟨hs.apart,List.pairwise_singleton _ _,fun j hj j' hj' => ?_⟩
      obtain ⟨t,ht,rfl⟩ := List.mem_map.mp hj
      obtain rfl := List.mem_singleton.mp hj'
      exact ha.2 t ht
  | thread i choice =>
    obtain ⟨job,op,k,r,w,new,ht,hexec,rfl⟩ := Machine.thread_step h
    have hwp := hs.threads _ (List.mem_of_getElem? ht)
    obtain ⟨hi,hg,hnew,hk⟩ := hwp s.world hs.inv (L.rely_refl _ _) choice r w new
      (ha job op k ht) hexec
    have hfst {n : ℕ} {t : J × Prog Op Res ε α} (h : s.threads[n]? = some t) :
        (s.threads.map Prod.fst)[n]? = some t.1 := by simp [h]
    refine ⟨hi,fun t htmem => ?_,?_⟩
    · rcases mem_set_append htmem with ⟨n,hn,htn⟩ | rfl | htnew
      · have hapart := L.apart_of_getElem? hs.apart hn (hfst ht) (hfst htn)
        exact L.wp_rely (hs.threads t (List.mem_of_getElem? htn))
          (L.rely_of_guar _ _ _ _ hapart hg)
      · exact hk
      · obtain ⟨u,hu,rfl⟩ := List.mem_map.mp htnew
        exact hbody u w hi (hnew u (by simpa using hu)).1
    · rw [List.map_append,map_fst_set ht]
      cases new with
      | none => simpa using hs.apart
      | some u =>
        obtain ⟨_,hju,hall⟩ := hnew u rfl
        simp only [Option.toList_some,List.map_cons,List.map_nil]
        refine List.pairwise_append.mpr ⟨hs.apart,List.pairwise_singleton _ _,fun j hj j' hj' => ?_⟩
        obtain rfl := List.mem_singleton.mp hj'
        obtain ⟨n,hn⟩ := List.mem_iff_getElem?.mp hj
        by_cases hni : n = i
        · subst hni
          obtain rfl := Option.some.inj (hn.symm.trans (hfst ht))
          exact hju
        · exact hall j (L.apart_symm _ _ (L.apart_of_getElem? hs.apart hni (hfst ht) hn))

theorem Logic.Good.guar_call {s : State W J Op Res ε α} (hs : L.Good s) {i : ℕ} {choice : Ch}
    (ha : L.Admits (.thread i choice) s) {job : J} {op : Op} {k : Except ε (Res op) → Prog Op Res ε α}
    {r : Except ε (Res op)} {w : W} {new : Option J} (ht : s.threads[i]? = some (job,.call op k))
    (hexec : m.exec job op choice s.world = some (r,w,new)) : L.guar job s.world w :=
  (hs.threads _ (List.mem_of_getElem? ht) s.world hs.inv (L.rely_refl _ _) choice r w new
    (ha job op k ht) hexec).2.1

/-- Each thread goes on towards its own end, whatever that is. -/
theorem Logic.wp_step {e : Event J Ch} {s s' : State W J Op Res ε α} (hs : L.Good s) (ha : L.Admits e s)
    (h : m.step e s = some s') {n : ℕ} {t : J × Prog Op Res ε α} {Q : Except ε α → W → Prop}
    (ht : s.threads[n]? = some t) (hwp : L.wp t.1 t.2 Q s.world) :
    ∃ p, s'.threads[n]? = some (t.1,p) ∧ L.wp t.1 p Q s'.world := by
  have hlt := (List.getElem?_eq_some_iff.mp ht).1
  cases e with
  | start job =>
    obtain rfl := Option.some.inj h
    exact ⟨t.2,by rw [List.getElem?_append_left hlt,ht],hwp⟩
  | thread i choice =>
    obtain ⟨job,op,k,r,w,new,hi,hexec,rfl⟩ := Machine.thread_step h
    have hfst {n : ℕ} {t : J × Prog Op Res ε α} (h : s.threads[n]? = some t) :
        (s.threads.map Prod.fst)[n]? = some t.1 := by simp [h]
    by_cases hin : i = n
    · subst hin
      obtain rfl := Option.some.inj (hi.symm.trans ht)
      refine ⟨k r,by rw [List.getElem?_append_left (by simpa using hlt),List.getElem?_set_self hlt],?_⟩
      exact (hwp s.world hs.inv (L.rely_refl _ _) choice r w new (ha job op k hi) hexec).2.2.2
    · refine ⟨t.2,by rw [List.getElem?_append_left (by simpa using hlt),List.getElem?_set_ne hin,ht],?_⟩
      have hapart := L.apart_of_getElem? hs.apart (Ne.symm hin) (hfst hi) (hfst ht)
      exact L.wp_rely hwp (L.rely_of_guar _ _ _ _ hapart (hs.guar_call ha hi hexec))

theorem Logic.good_of_reaches
    (hbody : ∀ j w, L.inv w → L.pre j w → L.wp j (m.body j) (L.post j) w)
    {cond : Event J Ch → State W J Op Res ε α → Prop} (hcond : ∀ e s, cond e s → L.Good s → L.Admits e s)
    {s₀ s : State W J Op Res ε α} {es : List (Event J Ch)} (h₀ : L.Good s₀)
    (h : Runs.Reaches m.step cond s₀ es s) : L.Good s :=
  h.invariant h₀ fun e s _ hs hc hstep => L.good_step hbody hs (hcond e s hc hs) hstep

def Prog.outcome : Prog Op Res ε γ → Option (Except ε γ)
  | .ret a => some (.ok a)
  | .throw e => some (.error e)
  | .call _ _ => none

theorem Logic.Good.post {s : State W J Op Res ε α} (hs : L.Good s) {t : J × Prog Op Res ε α}
    (ht : t ∈ s.threads) {r : Except ε α} (hr : t.2.outcome = some r) : L.post t.1 r s.world := by
  have hwp := hs.threads t ht
  obtain ⟨j,p⟩ := t
  cases p with
  | ret a =>
    obtain rfl := Option.some.inj hr
    exact hwp s.world hs.inv (L.rely_refl _ _)
  | throw e =>
    obtain rfl := Option.some.inj hr
    exact hwp s.world hs.inv (L.rely_refl _ _)
  | call op k => simp [Prog.outcome] at hr

end Programs
