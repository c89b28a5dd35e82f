import Bigbird.CommandQueue
import Bigbird.JavaText

/-! Several nodes whose queues keep their records in one `commandQueues` store, each under keys that
start with its name. -/
namespace Bigbird
namespace CommandQueue

open JavaText

variable {C : Type}

section Keys

/-- The string after the last colon of a key. -/
inductive Part
  | maximum
  | minimum
  | record (id : ℤ)

def Part.suffix : Part → JString
  | .maximum => "maximum".toList
  | .minimum => "minimum".toList
  | .record id => decimal id

def key (nodeName : JString) (part : Part) : JString := nodeName ++ ':'::part.suffix

def getVoldemortKey (nodeName : JString) (id : ℤ) : JString := key nodeName (.record id)

abbrev CommandQueues := JString → Option JString

/-- What a node finds under its keys. A number that is not a `long` is left out, where `initialize`
ends in a `NumberFormatException`. -/
def ownPart (nodeName : JString) (client : CommandQueues) : Store JString where
  maximum := (client (key nodeName .maximum)).bind (parse 64)
  minimum := (client (key nodeName .minimum)).bind (parse 64)
  command id := client (getVoldemortKey nodeName id)

def Action.write (codec : Codec C JString) (nodeName : JString) : Action C → CommandQueues → CommandQueues
  | .putCommand _ c id, client => Function.update client (getVoldemortKey nodeName id) (some (codec.encode c))
  | .deleteCommand _ id, client => Function.update client (getVoldemortKey nodeName id) none
  | .putMaximum v, client => Function.update client (key nodeName .maximum) (some (decimal v))
  | .putMinimum v, client => Function.update client (key nodeName .minimum) (some (decimal v))
  | _, client => client

/-- The numbers that are stored are Java `long`s. -/
def Action.Long : Action C → Prop
  | .putMaximum v => -2^63 ≤ v ∧ v < 2^63
  | .putMinimum v => -2^63 ≤ v ∧ v < 2^63
  | _ => True

instance (a : Action C) : Decidable a.Long := by
  unfold Action.Long
  split <;> infer_instance

theorem decimal_int_injective {m n : ℤ} (h : decimal m = decimal n) : m = n := by
  have hparse : parse (m.natAbs+1) (decimal m) = some m := by
    have hlt : m.natAbs < 2^m.natAbs := Nat.lt_two_pow_self
    have hcast : ((2^m.natAbs : ℕ) : ℤ) = 2^m.natAbs := by push_cast; rfl
    refine parse_decimal ?_
    rw [Nat.add_sub_cancel,← hcast]
    omega
  rw [h] at hparse
  exact eq_of_parse_decimal hparse

theorem colon_not_mem_suffix (part : Part) : ':' ∉ part.suffix := by
  cases part with
  | record id => exact not_mem_decimal (by decide) (by decide) id
  | _ => decide

theorem suffix_injective {part part' : Part} (h : part.suffix = part'.suffix) : part = part' := by
  have hletter (id : ℤ) : 'm' ∉ (Part.record id).suffix := not_mem_decimal (by decide) (by decide) id
  cases part with
  | maximum =>
    cases part' with
    | maximum => rfl
    | minimum => exact absurd h (by decide)
    | record id => exact absurd (h ▸ (by decide : 'm' ∈ Part.maximum.suffix)) (hletter id)
  | minimum =>
    cases part' with
    | maximum => exact absurd h (by decide)
    | minimum => rfl
    | record id => exact absurd (h ▸ (by decide : 'm' ∈ Part.minimum.suffix)) (hletter id)
  | record id =>
    cases part' with
    | maximum => exact absurd (h ▸ (by decide : 'm' ∈ Part.maximum.suffix)) (hletter id)
    | minimum => exact absurd (h ▸ (by decide : 'm' ∈ Part.minimum.suffix)) (hletter id)
    | record id' => rw [decimal_int_injective h]

/-- The last colon of a key ends the name, whatever the name is. -/
theorem key_injective {a b : JString} {part part' : Part} (h : key a part = key b part') : a = b ∧ part = part' :=
  (append_cons_inj (colon_not_mem_suffix part) (colon_not_mem_suffix part') h).imp_right suffix_injective

end Keys

section Accesses

variable [DecidableEq C] {codec : Codec C JString} {nodeName : JString} {client : CommandQueues}

theorem ownPart_write {a : Action C} (h : a.Long) {s : Shared C JString} (hs : s.store = ownPart nodeName client) :
    ownPart nodeName (a.write codec nodeName client) = (a.apply codec s).store := by
  have hne {part part' : Part} (h : part ≠ part') : key nodeName part ≠ key nodeName part' :=
    fun heq => h (key_injective heq).2
  have hrecord (id : ℤ) (part : Part) (h : ∀ id, part ≠ .record id) : getVoldemortKey nodeName id ≠ key nodeName part :=
    fun heq => h id (key_injective heq).2.symm
  have hids {id id' : ℤ} : getVoldemortKey nodeName id' = getVoldemortKey nodeName id ↔ id' = id :=
    ⟨fun heq => by injection (key_injective heq).2,fun heq => by rw [heq]⟩
  cases a with
  | putCommand mode c id =>
    simp only [Action.write,Action.apply,hs,ownPart]
    rw [Function.update_of_ne (hrecord id .maximum (by simp)).symm,Function.update_of_ne (hrecord id .minimum (by simp)).symm]
    congr 1
    funext id'
    simp only [Function.update_apply,hids]
  | deleteCommand c id =>
    simp only [Action.write,Action.apply,hs,ownPart]
    rw [Function.update_of_ne (hrecord id .maximum (by simp)).symm,Function.update_of_ne (hrecord id .minimum (by simp)).symm]
    congr 1
    funext id'
    simp only [Function.update_apply,hids]
  | putMaximum v =>
    have hparse : parse 64 (decimal v) = some v := parse_decimal h
    simp only [Action.write,Action.apply,hs,ownPart]
    rw [Function.update_self,Function.update_of_ne (hne (by simp)),Option.bind_some,hparse]
    congr 1
    funext id
    exact Function.update_of_ne (hrecord id .maximum (by simp)) _ _
  | putMinimum v =>
    have hparse : parse 64 (decimal v) = some v := parse_decimal h
    simp only [Action.write,Action.apply,hs,ownPart]
    rw [Function.update_self,Function.update_of_ne (hne (by simp)),Option.bind_some,hparse]
    congr 1
    funext id
    exact Function.update_of_ne (hrecord id .minimum (by simp)) _ _
  | _ => exact hs.symm

omit [DecidableEq C] in
theorem ownPart_write_of_ne {other : JString} (h : other ≠ nodeName) (a : Action C) :
    ownPart other (a.write codec nodeName client) = ownPart other client := by
  have hne (part part' : Part) : key other part ≠ key nodeName part' := fun heq => h (key_injective heq).1
  cases a with
  | putCommand | deleteCommand | putMaximum | putMinimum =>
    simp only [Action.write,ownPart,getVoldemortKey]
    simp only [Function.update_of_ne (hne _ _)]
  | _ => rfl

end Accesses

section Nodes

structure Process (C : Type) where
  fields : Fields
  unfinished : List (ℤ × C)
  unreturned : List (ℤ × C)
  inherited : List (ℤ × C)
  recovered : List (ℤ × C)
  threads : List (Thread C)

def Process.over (p : Process C) (store : Store JString) : State C JString :=
  ⟨⟨p.fields,store,p.unfinished,p.unreturned,p.inherited,p.recovered⟩,p.threads⟩

def State.process (s : State C JString) : Process C :=
  ⟨s.shared.fields,s.shared.unfinished,s.shared.unreturned,s.shared.inherited,s.shared.recovered,s.threads⟩

/-- The nodes by their names, with the store that they share. -/
structure Cluster (C : Type) where
  client : CommandQueues
  process : JString → Process C

def Cluster.node (c : Cluster C) (nodeName : JString) : State C JString :=
  (c.process nodeName).over (ownPart nodeName c.client)

variable [DecidableEq C]

/-- A node takes a step, and its access is one to the shared store. -/
def Cluster.step (codec : Codec C JString) (e : JString × Event C) (c : Cluster C) : Option (Cluster C) :=
  ((c.node e.1).step codec e.2).map fun s =>
    ⟨(e.2.action codec (c.node e.1)).write codec e.1 c.client,Function.update c.process e.1 s.process⟩

/-- The event of a node stores no number that is not a Java `long`. -/
def Long (codec : Codec C JString) (e : Event C) (s : State C JString) : Prop := (e.action codec s).Long

def NodeLong (codec : Codec C JString) (e : JString × Event C) (c : Cluster C) : Prop := Long codec e.2 (c.node e.1)

def eventsOf (nodeName : JString) (es : List (JString × Event C)) : List (Event C) :=
  es.filterMap fun e => if e.1 = nodeName then some e.2 else none

variable {codec : Codec C JString}

theorem apply_action {e : Event C} {s s' : State C JString} (h : s.step codec e = some s') :
    s'.shared.store = ((e.action codec s).apply codec s.shared).store := by
  cases e with
  | thread i o =>
    obtain ⟨t,a,t',new,_,_,ha,rfl⟩ := thread_step h
    rw [ha]
  | _ =>
    cases h
    rfl

theorem node_of_step {e : JString × Event C} {c c' : Cluster C} (hlong : NodeLong codec e c)
    (h : c.step codec e = some c') : (c.node e.1).step codec e.2 = some (c'.node e.1) ∧
      ∀ nodeName, nodeName ≠ e.1 → c'.node nodeName = c.node nodeName := by
  obtain ⟨s,hs,rfl⟩ := Option.map_eq_some_iff.mp h
  constructor
  · have hstore := (ownPart_write hlong rfl).trans (apply_action hs).symm
    rw [hs]
    simp only [Cluster.node,Function.update_self,Process.over,State.process] at hstore ⊢
    rw [hstore]
  · intro nodeName hne
    simp only [Cluster.node,Function.update_of_ne hne,ownPart_write_of_ne hne]

omit [DecidableEq C] in
theorem eventsOf_concat (nodeName : JString) (es : List (JString × Event C)) (e : JString × Event C) :
    eventsOf nodeName (es++[e]) = if e.1 = nodeName then eventsOf nodeName es ++ [e.2] else eventsOf nodeName es := by
  unfold eventsOf
  rw [List.filterMap_append]
  split <;> rename_i h <;> simp [h]

/-- On each node a run of all of them is a run of this node alone. -/
theorem node_of_reaches {c c' : Cluster C} {es : List (JString × Event C)}
    (h : Runs.Reaches (Cluster.step codec) (NodeLong codec) c es c') (nodeName : JString) :
    Runs.Reaches (State.step codec) (Long codec) (c.node nodeName) (eventsOf nodeName es) (c'.node nodeName) := by
  induction h with
  | start => exact .start
  | next e _ hlong hstep ih =>
    obtain ⟨hself,hothers⟩ := node_of_step hlong hstep
    rw [eventsOf_concat]
    split
    · rename_i heq
      subst heq
      exact .next e.2 ih hlong hself
    · rename_i hne
      rwa [hothers nodeName (Ne.symm hne)]

/-- Whatever the nodes do on their own, they do in any order of their steps, too. -/
theorem reaches_of_nodes {c : Cluster C} {es : List (JString × Event C)} {s : JString → State C JString}
    (h : ∀ nodeName, Runs.Reaches (State.step codec) (Long codec) (c.node nodeName) (eventsOf nodeName es) (s nodeName)) :
    ∃ c', Runs.Reaches (Cluster.step codec) (NodeLong codec) c es c' ∧ ∀ nodeName, c'.node nodeName = s nodeName := by
  induction es using List.reverseRecOn generalizing s with
  | nil =>
    refine ⟨c,.start,fun nodeName => ?_⟩
    exact Option.some.inj (h nodeName).run_eq
  | append_singleton es e ih =>
    have hself := h e.1
    rw [eventsOf_concat,if_pos rfl] at hself
    obtain ⟨u,hu,hlong,hstep⟩ := Runs.reaches_concat_iff.mp hself
    obtain ⟨c',hc',hnodes⟩ := ih (s:=Function.update s e.1 u) fun nodeName => by
      by_cases hne : nodeName = e.1
      · subst hne
        rwa [Function.update_self]
      · have hother := h nodeName
        rw [eventsOf_concat,if_neg (Ne.symm hne)] at hother
        rwa [Function.update_of_ne hne]
    have hnode : c'.node e.1 = u := (hnodes e.1).trans (Function.update_self _ _ _)
    have hlong' : NodeLong codec e c' := by
      rw [NodeLong,hnode]
      exact hlong
    obtain ⟨c'',hc''⟩ : ∃ c'', Cluster.step codec e c' = some c'' := by
      rw [Cluster.step,hnode,hstep]
      exact ⟨_,rfl⟩
    refine ⟨c'',.next e hc' hlong' hc'',fun nodeName => ?_⟩
    obtain ⟨hself',hothers⟩ := node_of_step hlong' hc''
    by_cases hne : nodeName = e.1
    · subst hne
      rw [hnode,hstep] at hself'
      exact (Option.some.inj hself').symm
    · rw [hothers nodeName hne,hnodes nodeName,Function.update_of_ne hne]

/-- The nodes share a store, and none of them notices: they reach certain states by these events, in
this order, exactly if each node reaches its state by its own events on its own part of the store. -/
theorem cluster_runs_iff (codec : Codec C JString) (c : Cluster C) (es : List (JString × Event C))
    (s : JString → State C JString) :
    (∃ c', Runs.Reaches (Cluster.step codec) (NodeLong codec) c es c' ∧ ∀ nodeName, c'.node nodeName = s nodeName) ↔
      ∀ nodeName, Runs.Reaches (State.step codec) (Long codec) (c.node nodeName) (eventsOf nodeName es) (s nodeName) := by
  refine ⟨?_,reaches_of_nodes⟩
  rintro ⟨c',hc',hnodes⟩ nodeName
  rw [← hnodes nodeName]
  exact node_of_reaches hc' nodeName

end Nodes

end CommandQueue
end Bigbird
