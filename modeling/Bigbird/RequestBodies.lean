import Bigbird.Json

/-! The bodies of the requests that the page puts together from strings, and which texts they
carry. -/
namespace Bigbird
namespace RequestBodies

open JsonText

/-- An object with one member, whose value is put between quotes as it is. -/
def body (member : String) (s : Text) : Text := units "\x7b \"" ++ units member ++ units "\" : \"" ++ s ++ units "\" \x7d"

def tweetBody (tweetBox : Text) : Text := body "tweet" tweetBox

def stopFollowingBody (currentUser : Text) : Text := body "user" currentUser

def startFollowingBody (currentUser : Text) : Text := body "user" currentUser

section Bodies

variable {member : String} {s : Text} {ms : List (Text × Json)}

theorem body_eq (member : String) (s : Text) :
    body member s = 123::32::34::(units member ++ 34::32::58::32::34::(s ++ 34::[32,125])) := by
  have hopen : units "\x7b \"" = [123,32,34] := by decide
  have hcolon : units "\" : \"" = [34,32,58,32,34] := by decide
  have hclose : units "\" \x7d" = [34,32,125] := by decide
  simp [body,hopen,hcolon,hclose]

/-- The first member has the name that was meant, and what follows a value that is not closed by the
last quote is read as further members. -/
theorem members_of_body (hmember : Clean (units member)) (h : parse (body member s) = some (.obj ms)) :
    ∃ t j ms', chars (s ++ 34::[32,125]) = some (t,j) ∧ ms = (units member,.str t)::ms' ∧
      ∀ key u, (key,.str u) ∈ ms' → u.length + 3 ≤ j.length := by
  obtain ⟨r,hreads,_⟩ := parse_eq_some_iff.mp h
  rw [body_eq] at hreads
  have hkey := chars_clean hmember (32::58::32::34::(s ++ 34::[32,125]))
  have hobj : Reads (.members ms) (34::(units member ++ 34::32::58::32::34::(s ++ 34::[32,125]))) r := by
    cases hreads with
    | literal hliteral =>
      change literal (123::_) = _ at hliteral
      rw [literal_eq_none (by decide)] at hliteral
      cases hliteral
    | emptyObj hclose => cases hclose
    | obj hreads => exact hreads
  have hstr {v : Json} {l : Text} (hvalue : Reads (.value v) (34::(s ++ 34::[32,125])) l) :
      ∃ t, v = .str t ∧ chars (s ++ 34::[32,125]) = some (t,l) := by
    cases hvalue with
    | str hchars => exact ⟨_,rfl,hchars⟩
    | literal hliteral =>
      rw [literal_eq_none (by decide)] at hliteral
      cases hliteral
  cases hobj with
  | lastMember hchars hcolon hvalue hclose =>
    rw [hkey] at hchars
    cases hchars
    cases hcolon
    obtain ⟨t,rfl,ht⟩ := hstr hvalue
    exact ⟨t,_,[],ht,rfl,by simp⟩
  | member hchars hcolon hvalue hcomma hrest =>
    rw [hkey] at hchars
    cases hchars
    cases hcolon
    obtain ⟨t,rfl,ht⟩ := hstr hvalue
    refine ⟨t,_,_,ht,rfl,fun key u hu => ?_⟩
    have hlength := hrest.str_length hu
    have hlt := length_of_skip hcomma
    exact hlength.trans ((skip_length _).trans hlt.le)

theorem clean_of_mem (hmember : Clean (units member)) (h : parse (body member s) = some (.obj ms)) {key : Text}
    (hmem : (key,.str s) ∈ ms) : Clean s := by
  obtain ⟨t,j,ms',hchars,rfl,hrest⟩ := members_of_body hmember h
  rcases chars_quoted (by decide) hchars with ⟨_,hclean,_⟩ | ⟨hlt,hle⟩
  · exact hclean
  · rcases List.mem_cons.mp hmem with heq | hmem
    · cases heq
      omega
    · have hlength := hrest key s hmem
      simp only [List.length_cons,List.length_nil] at hle
      omega

theorem parse_body (hmember : Clean (units member)) (hs : Clean s) :
    parse (body member s) = some (.obj [(units member,.str s)]) := by
  rw [parse_eq_some_iff,body_eq]
  have hkey := chars_clean hmember (32::58::32::34::(s ++ 34::[32,125]))
  exact ⟨[],.obj (.lastMember hkey rfl (.str (chars_clean hs [32,125])) rfl),rfl⟩

end Bodies

/-- An object in which this string is the value of a member. -/
def Carries (s : Text) : Json → Prop
  | .obj ms => ∃ key, (key,.str s) ∈ ms
  | _ => False

theorem body_decode_iff {member : String} (hmember : Clean (units member)) (s : Text) :
    (parse (body member s) = some (.obj [(units member,.str s)]) ↔ Clean s) ∧
      ∀ v ∈ parse (body member s), Carries s v → Clean s := by
  have hcarries : ∀ v ∈ parse (body member s), Carries s v → Clean s := by
    intro v hv hs
    cases v with
    | obj ms =>
      obtain ⟨key,hmem⟩ := hs
      exact clean_of_mem hmember hv hmem
    | _ => exact hs.elim
  exact ⟨⟨fun h => hcarries _ h ⟨units member,List.mem_singleton_self _⟩,parse_body hmember⟩,hcarries⟩

theorem clean_tweet : Clean (units "tweet") := by
  have hunits : units "tweet" = [116,119,101,101,116] := by decide
  simp [Clean,hunits]

theorem clean_user : Clean (units "user") := by
  have hunits : units "user" = [117,115,101,114] := by decide
  simp [Clean,hunits]

/-- The bodies carry their text exactly if it has no quotes, backslashes and control characters; no
other text is in any member of what is read. -/
theorem bodies_decode_iff (s : Text) :
    ((parse (tweetBody s) = some (.obj [(units "tweet",.str s)]) ↔ Clean s) ∧
      ∀ v ∈ parse (tweetBody s), Carries s v → Clean s) ∧
    ((parse (stopFollowingBody s) = some (.obj [(units "user",.str s)]) ↔ Clean s) ∧
      ∀ v ∈ parse (stopFollowingBody s), Carries s v → Clean s) ∧
    ((parse (startFollowingBody s) = some (.obj [(units "user",.str s)]) ↔ Clean s) ∧
      ∀ v ∈ parse (startFollowingBody s), Carries s v → Clean s) := by
  exact ⟨body_decode_iff clean_tweet s,body_decode_iff clean_user s,body_decode_iff clean_user s⟩

/-- A quote ends the text, and what follows it is read as another member. -/
theorem body_injection :
    parse (tweetBody [97,34,44,34,98,34,58,34]) = some (.obj [(units "tweet",.str [97]),([98],.str [])]) ∧
    ¬ ∀ s, parse (tweetBody s) = some (.obj [(units "tweet",.str s)]) := by
  refine ⟨?_,fun hall => ?_⟩
  · rw [tweetBody,parse_eq_some_iff,body_eq]
    have hkey := chars_clean clean_tweet (32::58::32::34::([97,34,44,34,98,34,58,34] ++ 34::[32,125]))
    have hvalue : chars ([97,34,44,34,98,34,58,34] ++ 34::[32,125]) = some ([97],[44,34,98,34,58,34,34,32,125]) := by
      decide
    have hkey' : chars [98,34,58,34,34,32,125] = some ([98],[58,34,34,32,125]) := by decide
    have hvalue' : chars [34,32,125] = some ([],[32,125]) := by decide
    exact ⟨[],.obj (.member hkey rfl (.str hvalue) rfl (.lastMember hkey' rfl (.str hvalue') rfl)),rfl⟩
  · have hquote := (body_decode_iff clean_tweet [34]).1.mp (hall [34])
    simp [Clean] at hquote

end RequestBodies
end Bigbird
