import Bigbird.CommandQueue
import Bigbird.Utf8

/-! The stored form of a command: `storeRemotely` puts `new String(serialize(command))`,
and `initialize` reads an object from `value.getBytes()`. The charset is UTF-8. -/
namespace Bigbird
namespace CommandQueue

/-- The first bytes of everything that `ObjectOutputStream` writes. -/
def streamHeader : List UInt8 := [0xac,0xed,0x00,0x05]

/-- `new String(bytes)` -/
def newString (bytes : List UInt8) : List Char := Utf8.decode bytes

/-- `value.getBytes()` -/
def getBytes (value : List Char) : List UInt8 := Utf8.encode value

theorem getBytes_newString_header {bytes : List UInt8} (h : streamHeader <+: bytes) :
    ∃ rest, getBytes (newString bytes) = 0xef::0xbf::0xbd::rest := by
  obtain ⟨rest,rfl⟩ := h
  have hdecode : Utf8.decode (0xac::([0xed,0x00,0x05]++rest)) = _ :=
    Utf8.decode_cons (by decide) (by decide)
  exact ⟨_,by rw [getBytes,newString]; exact congrArg Utf8.encode hdecode⟩

theorem not_header_getBytes_newString {bytes : List UInt8} (h : streamHeader <+: bytes) :
    ¬streamHeader <+: getBytes (newString bytes) := by
  obtain ⟨rest,hrest⟩ := getBytes_newString_header h
  rw [hrest]
  simp [streamHeader]

/-- No serialized command comes back as the byte array that was stored. -/
theorem getBytes_newString_ne {C : Type} (serialize : C → List UInt8)
    (hheader : ∀ c, streamHeader <+: serialize c) (command : C) :
    getBytes (newString (serialize command)) ≠ serialize command := by
  obtain ⟨rest,hrest⟩ := hheader command
  rw [← hrest]
  exact Utf8.encode_decode_ne (by decide)

/-- `DataOutputStream.writeUTF` of a string of less than 256 ASCII characters. -/
def writeUTF (s : String) : List UInt8 := 0x00::s.length.toUInt8::s.toList.map fun c => c.toNat.toUInt8

/-- What `serialize` makes of a command without fields: the object, its class and the class
`Command`, each class with its `serialVersionUID`. -/
def counterCommand : List UInt8 :=
  streamHeader ++ ([0x73,0x72] ++ writeUTF "bigbird.voldemort.CommandQueueTest$CounterCommand" ++
    [0x5f,0x15,0xe8,0x89,0x76,0x82,0x92,0xf2,0x02,0x00,0x00,0x78,0x72] ++
    writeUTF "bigbird.queue.Command" ++
    [0x34,0x88,0x1a,0x14,0x9a,0xa2,0x11,0xbb,0x02,0x00,0x00,0x78,0x70])

theorem header_counterCommand : streamHeader <+: counterCommand := List.prefix_append _ _

theorem counterCommand_lost :
    ¬ ∀ bytes, streamHeader <+: bytes → getBytes (newString bytes) = bytes := by
  intro hall
  refine not_header_getBytes_newString header_counterCommand ?_
  rw [hall counterCommand header_counterCommand]
  exact header_counterCommand

theorem counterCommand_ne : getBytes (newString counterCommand) ≠ counterCommand :=
  getBytes_newString_ne (fun _ : Unit => counterCommand) (fun _ => header_counterCommand) ()

variable {C : Type} (serialize : C → List UInt8) (readObject : List UInt8 → Option C)
  (hheader : ∀ c, streamHeader <+: serialize c)
  (hread : ∀ bytes, ¬streamHeader <+: bytes → readObject bytes = none)

include hheader hread in
theorem readObject_getBytes_newString (c : C) :
    readObject (getBytes (newString (serialize c))) = none :=
  hread _ (not_header_getBytes_newString (hheader c))

/-- The records as `storeRemotely` writes and `initialize` reads them. `ObjectInputStream`
throws an `IOException` on a stream without the header. -/
def javaCodec : Codec C (List Char) where
  encode c := newString (serialize c)
  decode value := readObject (getBytes value)
  decode_encode c c' h := by
    simp [readObject_getBytes_newString serialize readObject hheader hread c] at h

variable {V : Type} [DecidableEq C] {codec : Codec C V}

/-- No record of the store can be read, and none was. -/
structure Unreadable (codec : Codec C V) (s : State C V) : Prop where
  record : ∀ id v, s.shared.store.command id = some v → codec.decode v = none
  thread : ∀ t ∈ s.threads, ∀ l c, t ≠ .recoverAdd l c
  recovered : s.shared.recovered = []

omit [DecidableEq C] in
theorem step_recoverAdd {o : Outcome} {s : Shared C V} {t t' : Thread C} {a : Action C}
    {new : List (Thread C)} (h : t.Steps codec s o a t' new) :
    (∀ l c, t' = .recoverAdd l c → ∃ v, s.store.command l = some v ∧ codec.decode v = some c) ∧
    (∀ u ∈ new, ∀ l c, u ≠ .recoverAdd l c) ∧ (∀ c l, a = .resubmit c l → t = .recoverAdd l c) := by
  cases h with
  | readable hv hd =>
    refine ⟨?_,by simp,by simp⟩
    rintro _ _ ⟨⟩
    exact ⟨_,hv,hd⟩
  | _ => simp

theorem unreadable_step (hnone : ∀ c, codec.decode (codec.encode c) = none) {e : Event C}
    {s s' : State C V} (hs : Unreadable codec s) (h : s.step codec e = some s') :
    Unreadable codec s' := by
  cases e with
  | thread i o =>
    obtain ⟨t,a,t',new,ht,hstep,_,rfl⟩ := thread_step h
    have htmem : t ∈ s.threads := List.mem_of_getElem? ht
    obtain ⟨hown,hnew,hresubmit⟩ := step_recoverAdd hstep
    refine ⟨fun id v hv => ?_,fun u hu l c => ?_,?_⟩
    · rcases record_of_apply hv with hv | ⟨_,c,_,rfl⟩
      · exact hs.record id v hv
      · exact hnone c
    · rcases mem_threads hu with hu | rfl | hu
      · exact hs.thread u hu l c
      · intro hlc
        obtain ⟨v,hv,hd⟩ := hown l c hlc
        simp [hs.record l v hv] at hd
      · exact hnew u hu l c
    · cases a with
      | resubmit c l => exact absurd (hresubmit c l rfl) (hs.thread t htmem l c)
      | _ => exact hs.recovered
  | restart =>
    obtain rfl := Option.some.inj h
    exact ⟨hs.record,by simp,rfl⟩
  | call | shutdown =>
    obtain rfl := Option.some.inj h
    refine ⟨hs.record,fun t ht l c => ?_,hs.recovered⟩
    rcases List.mem_append.mp ht with ht | ht
    · exact hs.thread t ht l c
    · obtain rfl := List.mem_singleton.mp ht
      simp

/-- With records in this form no `initialize` ever submits a command again. -/
theorem nothing_recovered (increment threshold : ℤ) (es : List (Event C)) (s : State C (List Char))
    (h : Runs.Reaches (State.step (javaCodec serialize readObject hheader hread)) Runs.anyStep
      (State.start increment threshold Store.empty) es s) : s.shared.recovered = [] := by
  have hnone := readObject_getBytes_newString serialize readObject hheader hread
  refine (h.invariant (I:=Unreadable (javaCodec serialize readObject hheader hread)) ?_
    fun _ _ _ hs _ hstep => unreadable_step hnone hs hstep).recovered
  exact ⟨by simp [State.start,Store.empty],by simp [State.start],rfl⟩

end CommandQueue
end Bigbird
