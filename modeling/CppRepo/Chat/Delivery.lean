import CppRepo.Chat.Reading
import CppRepo.Chat.Server

/-!
# From one client to the others

What the clients say goes into one sequence of broadcasts. A client is sent the part of the sequence
that begins when it joins and ends when it leaves, after its welcome, and what has been written to
it is the beginning of that. So no two clients see two messages in different orders, and what one
client says reaches every other one in the order in which it was said. Of the room it only matters
who is a member when something is said.

## Three lists

For a client there are the broadcasts of the whole history, those that reach it, and what was posted
to it. `Segment` says of the first two that the second is a part without gaps, which ends where the
first does as long as the client is a member. `Posts` says of the last two that they agree, after
the welcome. Both are inductions over the events a room allows, and do not look at the server again.
-/

namespace CppRepo

namespace Chat

variable {ι τ : Type} [DecidableEq ι]

/-! ## The sequence of broadcasts

A client that has not been seen is reached by nothing; one that is a member is reached by all that
is said from then on; and one that is gone is not reached any more. These are the three cases of
`Segment`, and each event moves a client from one to the next or not at all. -/

/-- What an event says. -/
def Event.said : Event ι τ → List (Broadcast ι τ)
  | .broadcast b _ => [b]
  | _ => []

/-- What an event says to `c`. -/
def Event.saidTo (c : ι) : Event ι τ → List (Broadcast ι τ)
  | .broadcast b members => if c ∈ members then [b] else []
  | _ => []

/-- All that is said. -/
def broadcasts (history : List (Event ι τ)) : List (Broadcast ι τ) := history.flatMap Event.said

/-- All that reaches `c`. -/
def reaches (c : ι) (history : List (Event ι τ)) : List (Broadcast ι τ) :=
  history.flatMap (Event.saidTo c)

variable {history : List (Event ι τ)} {e : Event ι τ} {r : Room ι} {c : ι}

omit [DecidableEq ι] in
private theorem broadcasts_concat (history : List (Event ι τ)) (e : Event ι τ) :
    broadcasts (history ++ [e]) = broadcasts history ++ e.said := by
  rw [broadcasts, broadcasts, List.flatMap_append, List.flatMap_singleton]

private theorem reaches_concat (c : ι) (history : List (Event ι τ)) (e : Event ι τ) :
    reaches c (history ++ [e]) = reaches c history ++ e.saidTo c := by
  rw [reaches, reaches, List.flatMap_append, List.flatMap_singleton]

/-- What has reached `c` is one part of the sequence: nothing before it joins, the last part while
it is a member, and no more after it has left. -/
structure Segment (c : ι) (history : List (Event ι τ)) (r : Room ι) : Prop where
  before : c ∉ r.members → c ∉ r.gone → reaches c history = []
  during : c ∈ r.members → reaches c history <:+ broadcasts history
  always : reaches c history <:+: broadcasts history

namespace Segment

theorem quiet {r₀ : Room ι} (hs : Segment c history r₀) (hsaid : e.said = [])
    (hsaidTo : e.saidTo c = []) (hmembers : c ∈ r.members → c ∈ r₀.members ∨ c ∉ r₀.gone)
    (hbefore : c ∉ r.members → c ∉ r.gone → c ∉ r₀.members ∧ c ∉ r₀.gone) :
    Segment c (history ++ [e]) r := by
  have hall : broadcasts (history ++ [e]) = broadcasts history := by
    rw [broadcasts_concat, hsaid, List.append_nil]
  have hmine : reaches c (history ++ [e]) = reaches c history := by
    rw [reaches_concat, hsaidTo, List.append_nil]
  refine ⟨fun hm hg ↦ ?_, fun hm ↦ ?_, ?_⟩
  · obtain ⟨hm, hg⟩ := hbefore hm hg
    exact hmine.trans (hs.before hm hg)
  · rw [hmine, hall]
    by_cases hm₀ : c ∈ r₀.members
    · exact hs.during hm₀
    · rw [hs.before hm₀ ((hmembers hm).resolve_left hm₀)]
      exact List.nil_suffix
  · rw [hmine, hall]
    exact hs.always

theorem broadcast {b : Broadcast ι τ} {r' : Room ι} (hs : Segment c history r)
    (hmembers : r'.members = r.members) (hgone : r'.gone = r.gone) :
    Segment c (history ++ [.broadcast b r.members]) r' := by
  have hall : broadcasts (history ++ [.broadcast b r.members]) = broadcasts history ++ [b] :=
    broadcasts_concat history _
  by_cases hc : c ∈ r.members
  · have hmine : reaches c (history ++ [.broadcast b r.members]) = reaches c history ++ [b] := by
      rw [reaches_concat, Event.saidTo, if_pos hc]
    have hsuffix : reaches c history ++ [b] <:+ broadcasts history ++ [b] :=
      List.suffix_append_self_iff.mpr (hs.during hc)
    refine ⟨fun hm ↦ absurd (hmembers ▸ hc) hm, fun _ ↦ ?_, ?_⟩
    · rw [hmine, hall]
      exact hsuffix
    · rw [hmine, hall]
      exact hsuffix.isInfix
  · have hmine : reaches c (history ++ [.broadcast b r.members]) = reaches c history := by
      rw [reaches_concat, Event.saidTo, if_neg hc, List.append_nil]
    refine ⟨fun _ hg ↦ ?_, fun hm ↦ absurd (hmembers ▸ hm) hc, ?_⟩
    · exact hmine.trans (hs.before hc (hgone ▸ hg))
    · rw [hmine, hall]
      exact hs.always.trans (List.prefix_append _ _).isInfix

/-- **One event.** -/
theorem concat {r₀ : Room ι} (hs : Segment c history r₀) (h : Room.allow e r₀ = some r) :
    Segment c (history ++ [e]) r := by
  rcases e with c' | c' | c' | ⟨text | c', members⟩ <;>
    obtain ⟨hallow, h⟩ := Option.ite_none_right_eq_some.mp h <;>
    obtain rfl := Option.some_inj.mp h
  case entered => exact hs.quiet rfl rfl Or.inl fun hm hg ↦ ⟨hm, hg⟩
  case joined =>
    refine hs.quiet rfl rfl (fun hm ↦ ?_) fun hm hg ↦ ?_
    · rcases Finset.mem_insert.mp hm with rfl | hm
      · exact Or.inr hallow.2.2.2
      · exact Or.inl hm
    · exact ⟨fun h ↦ hm (Finset.mem_insert_of_mem h), hg⟩
  case left =>
    refine hs.quiet rfl rfl (fun hm ↦ Or.inl (Finset.mem_of_mem_erase hm)) fun hm hg ↦ ?_
    rw [Finset.mem_insert, not_or] at hg
    exact ⟨fun h ↦ hm (Finset.mem_erase.mpr ⟨hg.1, h⟩), hg.2⟩
  case broadcast.said =>
    obtain ⟨-, rfl⟩ := hallow
    exact hs.broadcast rfl rfl
  case broadcast.farewell =>
    obtain ⟨-, rfl⟩ := hallow
    exact hs.broadcast rfl rfl

private theorem of_allows (h : Room.Allows history r) (c : ι) : Segment c history r := by
  induction history using List.reverseRecOn generalizing r with
  | nil =>
    obtain rfl := Option.some_inj.mp h
    exact ⟨fun _ _ ↦ rfl, fun _ ↦ List.nil_suffix, List.nil_infix⟩
  | append_singleton history e ih =>
    obtain ⟨r₀, h₀, he⟩ := Room.allows_concat.mp h
    exact (ih h₀).concat he

end Segment

/-! ## What is posted to a session

The server posts each broadcast to all of its clients, and a welcome to the one that comes. So what
is posted to a session is read off the events that concern it. -/

namespace Server

variable {s t : Server} {c : ℕ} {history : List (Event ℕ Bytes)} {r : Room ℕ}

private theorem heard_broadcast (c : ℕ) (b : Said) (members : Finset ℕ) :
    heard c (.broadcast b members) =
      (Event.saidTo c (.broadcast b members)).map Broadcast.text := by
  rw [heard, Event.saidTo]
  split <;> rfl

/-- What is posted to a session: its welcome when it enters, and then what reaches it. -/
def Posts (c : ℕ) (history : List (Event ℕ Bytes)) (r : Room ℕ) : Prop :=
  postedTo c history =
    if c ∈ r.seen then welcomeText :: (reaches c history).map Broadcast.text else []

/-- Nobody enters. -/
theorem Posts.told {r₀ : Room ℕ} {e : Event ℕ Bytes} (hp : Posts c history r₀)
    (hseen : r.seen = r₀.seen) (he : heard c e = (e.saidTo c).map Broadcast.text)
    (hnone : c ∉ r₀.seen → e.saidTo c = []) :
    Posts c (history ++ [e]) r := by
  rw [Posts, postedTo_concat, reaches_concat, he, hp, hseen, List.map_append]
  split
  case isTrue => rfl
  case isFalse hc => rw [hnone hc, List.map_nil, List.append_nil]

private theorem posts_of_allows (h : Room.Allows history r) (c : ℕ) : Posts c history r := by
  induction history using List.reverseRecOn generalizing r with
  | nil =>
    obtain rfl := Option.some_inj.mp h
    rfl
  | append_singleton history e ih =>
    obtain ⟨r₀, h₀, he⟩ := Room.allows_concat.mp h
    obtain ⟨hmembers, hgone⟩ := (Room.account_of_allows h₀).seen
    have hnone {members : Finset ℕ} (hm : members = r₀.members) (hc : c ∉ r₀.seen)
        (b : Said) : Event.saidTo c (.broadcast b members) = [] :=
      if_neg fun hmem ↦ hc (hmembers (hm ▸ hmem))
    rcases e with c' | c' | c' | ⟨text | c', members⟩ <;>
      obtain ⟨hallow, he⟩ := Option.ite_none_right_eq_some.mp he <;>
      obtain rfl := Option.some_inj.mp he
    case entered =>
      by_cases hc : c = c'
      · subst hc
        have hfirst : reaches c history = [] :=
          (Segment.of_allows h₀ c).before (fun hm ↦ hallow.2 (hmembers hm))
            fun hg ↦ hallow.2 (hgone hg)
        rw [Posts, postedTo_concat, reaches_concat, ih h₀, if_neg hallow.2, hfirst, heard,
          if_pos rfl, if_pos (Finset.mem_insert_self _ _)]
        rfl
      · have hsame : c ∈ Insert.insert c' r₀.seen ↔ c ∈ r₀.seen := by
          rw [Finset.mem_insert, or_iff_right hc]
        rw [Posts, postedTo_concat, reaches_concat, ih h₀, heard, if_neg hc]
        simp only [hsame, Event.saidTo, List.append_nil]
    case joined => exact (ih h₀).told rfl rfl fun _ ↦ rfl
    case left => exact (ih h₀).told rfl rfl fun _ ↦ rfl
    case broadcast.said =>
      exact (ih h₀).told rfl (heard_broadcast ..) fun hc ↦ hnone hallow.2 hc _
    case broadcast.farewell =>
      exact (ih h₀).told rfl (heard_broadcast ..) fun hc ↦ hnone hallow.2 hc _

/-! ## What the clients say

The text of a message is part of what the session says, and it becomes one broadcast at once. So the
messages of each client are found among the broadcasts, in their order; here the steps of the server
are followed once more. -/

/-- The texts of all broadcasts, in order. -/
def texts (s : Server) : List Bytes := (broadcasts s.history).map Broadcast.text

/-- What each session has passed on was said, in the same order. -/
def Speaks (s : Server) : Prop := ∀ c, (s.sessions c).messages.Sublist s.texts

private theorem texts_post (b : Said) (s : Server) : (s.post b).texts = s.texts ++ [b.text] := by
  rw [texts, texts]
  change (broadcasts (s.history ++ [.broadcast b s.clients])).map _ = _
  rw [broadcasts_concat, List.map_append]
  rfl

private theorem messages_post (b : Said) (s : Server) (c : ℕ) :
    ((s.post b).sessions c).messages = (s.sessions c).messages := by
  simp only [post, note]
  split_ifs
  · exact (Session.sameReading_post _ _).messages
  · rfl

private theorem messages_endWrite {s t : Session} {k : ℕ} {error : Bool}
    (h : s.endWrite k error = some t) : t.messages = s.messages := by
  obtain ⟨message, -, rfl⟩ := Option.map_eq_some_iff.mp h
  rcases error with - | -
  · exact (Session.sameReading_onWritten _).messages
  · rfl

private theorem messages_endRead {s t : Session} (h : s.endRead = some t) :
    t.messages = s.messages := by
  obtain ⟨-, ht⟩ := Option.ite_none_left_eq_some.mp h
  obtain rfl := Option.some_inj.mp ht
  rfl

namespace Speaks

theorem post (hs : Speaks s) (b : Said) : Speaks (s.post b) := by
  intro c
  rw [messages_post, texts_post]
  exact (hs c).trans (List.sublist_append_left _ _)

theorem setSession {session : Session} (hs : Speaks s)
    (h : session.messages.Sublist (s.sessions c).messages) : Speaks (s.setSession c session) := by
  intro c'
  by_cases hc : c' = c
  · rw [hc, sessions_setSession]
    exact h.trans (hs c)
  · rw [sessions_setSession_of_ne hc]
    exact hs c'

theorem note {e : Event ℕ Bytes} (hs : Speaks s) (he : e.said = []) : Speaks (s.note e) := by
  have htexts : (s.note e).texts = s.texts := by
    simp only [texts, Server.note, broadcasts_concat, he, List.append_nil]
  intro c
  rw [htexts]
  exact hs c

theorem onError (hs : Speaks s) (c : ℕ) : Speaks (s.onError c) := by
  rw [Server.onError]
  split
  · have herase : Speaks (s.erase c) := note (s := { s with clients := s.clients.erase c }) hs rfl
    exact herase.post _
  · exact hs

theorem onAccept (hs : Speaks s) (peer : Bytes) (error : Bool) :
    Speaks (s.onAccept peer error) := by
  have hentered := note (s := { s with accepted := s.accepted + 1 })
    (e := .entered s.accepted) hs rfl
  have hnew : (Session.post welcomeText { peer, closed := error }).messages = [] :=
    (Session.sameReading_post _ _).messages
  have hwelcomed := hentered.setSession (c := s.accepted) (hnew ▸ List.nil_sublist _)
  have hjoined := note (e := .joined s.accepted) (hwelcomed.post (.said newcomerText)) rfl
  exact setSession (s := Server.insert s.accepted _) hjoined (List.Sublist.refl _)

/-- What the session passes on is said at once. -/
theorem onRead (hs : Speaks s) (c n : ℕ) : Speaks (s.onRead c n) := by
  have hread : Speaks ((s.setSession c ((s.sessions c).readMessage n).2).post
      (.said ((s.sessions c).readMessage n).1)) := by
    intro c'
    rw [messages_post, texts_post]
    by_cases hc : c' = c
    · rw [hc, sessions_setSession]
      exact (hs c).append (List.Sublist.refl _)
    · rw [sessions_setSession_of_ne hc]
      exact (hs c').trans (List.sublist_append_left _ _)
  exact hread.setSession (List.Sublist.refl _)

/-- **One step.** -/
theorem step (hs : Speaks s) (h : Step s t) : Speaks t := by
  obtain ⟨a, ha⟩ := h
  rcases a with ⟨peer, error⟩ | ⟨c, data⟩ | ⟨c, - | -⟩ | ⟨c, k, error⟩
  · exact Option.some_inj.mp ha ▸ hs.onAccept peer error
  · obtain ⟨session, hsession, rfl⟩ := Option.map_eq_some_iff.mp ha
    obtain ⟨-, rfl⟩ := of_ite_some hsession
    exact hs.setSession (List.Sublist.refl _)
  · obtain ⟨session, hsession, ha⟩ := Option.bind_eq_some_iff.mp ha
    obtain ⟨n, -, ha⟩ := Option.bind_eq_some_iff.mp ha
    obtain rfl := Option.some_inj.mp ha
    exact (hs.setSession (messages_endRead hsession ▸ List.Sublist.refl _)).onRead c n
  · obtain ⟨session, hsession, rfl⟩ := Option.map_eq_some_iff.mp ha
    have hclosed : session.close.messages.Sublist (s.sessions c).messages := by
      rw [← messages_endRead hsession]
      exact List.Sublist.refl _
    exact (hs.setSession hclosed).onError c
  · obtain ⟨session, hsession, rfl⟩ := Option.map_eq_some_iff.mp ha
    have hwritten : Speaks (s.setSession c session) := hs.setSession
      (messages_endWrite hsession ▸ List.Sublist.refl _)
    rcases error with - | -
    · exact hwritten
    · exact hwritten.onError c

/-- **A run.** -/
theorem of_reachable (hs : Reachable IsInitial Step s) : Speaks s := by
  refine hs.invariant ?_ fun s t _ hs hst ↦ hs.step hst
  rintro s rfl c
  exact List.Sublist.refl []

end Speaks

/-- **From one client to the others.** In every run what the clients say goes into one sequence of
broadcasts, each client's messages in their order; and what is sent to a client after its welcome is
one part of the sequence, the last part as long as it is a client, of which it has got a beginning,
and all of it if its last write is over and none has failed. -/
theorem delivery_of_reachable (hs : Reachable IsInitial Step s) :
    (∀ c, (s.sessions c).messages.Sublist s.texts) ∧
      ∀ c < s.accepted, ∃ part, part <:+: s.texts ∧ (c ∈ s.clients → part <:+ s.texts) ∧
        (s.sessions c).completed ++ (s.sessions c).outgoing = welcomeText :: part ∧
        ((s.sessions c).writes = [] → (s.sessions c).failed = false →
          (s.sessions c).completed = welcomeText :: part) := by
  have hserves := Serves.of_reachable hs
  obtain ⟨r, hr, hseen, hmembers, -⟩ := hserves.room
  refine ⟨Speaks.of_reachable hs, fun c hc ↦ ?_⟩
  have hsegment := Segment.of_allows hr c
  have hcoupled := hserves.coupled c
  have hposted : (s.sessions c).completed ++ (s.sessions c).outgoing =
      welcomeText :: (reaches c s.history).map Broadcast.text := by
    have hposts : postedTo c s.history = _ := posts_of_allows hr c
    rw [if_pos (hseen ▸ Finset.mem_range.mpr hc)] at hposts
    rw [← hcoupled.posted, hserves.posted, hposts]
  refine ⟨_, hsegment.always.map _, fun hmem ↦ ?_, hposted, fun hwrites hfailed ↦ ?_⟩
  · exact (hsegment.during (hmembers ▸ hmem)).map _
  · have hout : (s.sessions c).outgoing = [] := by
      have heq := hcoupled.writes
      rw [hwrites, hfailed, if_neg Bool.false_ne_true] at heq
      exact (List.take_eq_nil_iff.mp heq.symm).resolve_left Nat.one_ne_zero
    rwa [hout, List.append_nil] at hposted

/-- Two clients are accepted, and the second says something. -/
def oneSays : List Action :=
  [.accept (ascii "p") false, .accept (ascii "q") false, .arrive 1 (ascii "a\n"), .read 1 false,
    .write 0 0 false, .write 0 0 false]

theorem delivery_of_reachable_oneSays :
    ∃ s, Reachable IsInitial Step s ∧ s.clients = {0, 1} ∧
      ∃ part, part <:+ s.texts ∧ (s.sessions 0).completed ++ (s.sessions 0).outgoing =
        welcomeText :: part := by
  have hs : (execute act oneSays {}).any (fun s ↦ s.clients = {0, 1} ∧ s.accepted = 2) = true := by
    decide +kernel
  obtain ⟨s, hrun, hclients, haccepted⟩ := exists_of_execute hs
  have hreach : Reachable IsInitial Step s := reachable_of_execute (.start rfl) hrun
  obtain ⟨part, -, hlast, hposted, -⟩ := (delivery_of_reachable hreach).2 0 (by omega)
  exact ⟨s, hreach, hclients, part, hlast (by simp [hclients]), hposted⟩

end Server

end Chat

end CppRepo
