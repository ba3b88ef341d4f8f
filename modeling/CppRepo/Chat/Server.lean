import CppRepo.Chat.Session
import CppRepo.Chat.Room

/-!
# The chat server

The server accepts clients and passes what one of them says on to all. A session is known by the
number of sessions accepted before it, and `sessions` holds those that are no longer in `clients`,
too, because their operations may still end. All handlers run on the one thread of the `io_context`,
so each is one step; which operation ends next, and how, is left open, also after the socket was
closed.

`post` goes through `clients` in an order that depends on their hashes. It does the same with each
of them, and nothing with the others, so that the order does not matter.

## One step, several events

A step of the server may be several events of the room: a client is accepted, welcomed and
announced, and the failure of a session is its leaving and the farewell to the others. The room is
followed event by event within a step. Between two steps no farewell is owed, so a step begins and
ends in a room where anything may be said.

**Main result.** The history of the server is one that a room allows, and what was posted to a
session is what this history says (`Serves`).
-/

namespace CppRepo

namespace Chat

/-- What the server says to all of its clients. -/
abbrev Said := Broadcast ℕ Bytes

def Broadcast.text : Said → Bytes
  | .said text => text
  | .farewell _ => ascii "We are one less\n\r"

def welcomeText : Bytes := ascii "Welcome to chat\n\r"

def newcomerText : Bytes := ascii "We have a newcomer\n\r"

/-- The server, its sessions, and what has happened. -/
structure Server where
  /-- How many sessions there have been. -/
  accepted : ℕ := 0
  sessions : ℕ → Session := fun _ ↦ {}
  clients : Finset ℕ := ∅
  history : List (Event ℕ Bytes) := []

namespace Server

def setSession (c : ℕ) (session : Session) (s : Server) : Server :=
  { s with sessions := Function.update s.sessions c session }

def note (e : Event ℕ Bytes) (s : Server) : Server := { s with history := s.history ++ [e] }

/-- `server::post` -/
def post (b : Said) (s : Server) : Server :=
  note (.broadcast b s.clients) { s with
    sessions := fun c ↦ if c ∈ s.clients then (s.sessions c).post b.text else s.sessions c }

/-- `clients.insert(client)` -/
def insert (c : ℕ) (s : Server) : Server :=
  note (.joined c) { s with clients := Insert.insert c s.clients }

/-- `clients.erase(client)`, if it finds the client. -/
def erase (c : ℕ) (s : Server) : Server := note (.left c) { s with clients := s.clients.erase c }

/-- The error handler that session `c` is started with. -/
def onError (c : ℕ) (s : Server) : Server :=
  if c ∈ s.clients then (s.erase c).post (.farewell c) else s

/-- The handler of `async_accept`, which does not look at its error. -/
def onAccept (peer : Bytes) (error : Bool) (s : Server) : Server :=
  let c := s.accepted
  let client : Session := { peer, closed := error }
  let s := note (.entered c) { s with accepted := c + 1 }
  let s := s.setSession c (client.post welcomeText)
  let s := s.post (.said newcomerText)
  let s := s.insert c
  s.setSession c (s.sessions c).asyncRead

/-- What happens to the server. -/
inductive Action
  | accept (peer : Bytes) (error : Bool)
  | arrive (c : ℕ) (data : Bytes)
  | read (c : ℕ) (error : Bool)
  | write (c k : ℕ) (error : Bool)
  deriving DecidableEq

/-- `on_read` of session `c` without an error. -/
def onRead (c bytesTransferred : ℕ) (s : Server) : Server :=
  let (message, session) := (s.sessions c).readMessage bytesTransferred
  let s := s.setSession c session
  let s := s.post (.said message)
  s.setSession c (s.sessions c).asyncRead

/-- The next state of the server. -/
def act : Action → Server → Option Server
  | .accept peer error, s => some (s.onAccept peer error)
  | .arrive c data, s => ((s.sessions c).arrive data).map fun session ↦ s.setSession c session
  | .read c true, s => (s.sessions c).endRead.map fun session ↦
      (s.setSession c session.close).onError c
  | .read c false, s => do
    let session ← (s.sessions c).endRead
    let bytesTransferred ← lineLength session.streambuf
    return (s.setSession c session).onRead c bytesTransferred
  | .write c k error, s => ((s.sessions c).endWrite k error).map fun session ↦
      let s := s.setSession c session
      if error then s.onError c else s

def IsInitial (s : Server) : Prop := s = {}

/-- A step of the server. -/
def Step : Server → Server → Prop := Acts act

theorem sessions_setSession (c : ℕ) (session : Session) (s : Server) :
    (s.setSession c session).sessions c = session := Function.update_self _ _ _

theorem sessions_setSession_of_ne {c c' : ℕ} (hc : c' ≠ c) (session : Session) (s : Server) :
    (s.setSession c session).sessions c' = s.sessions c' := Function.update_of_ne hc _ _

/-! ## What was posted to a session

`postedTo` computes from a history what should have been posted to a session. It is the sum over the
events, so an event adds to the end of it. -/

/-- What an event posts to session `c`. -/
def heard (c : ℕ) : Event ℕ Bytes → List Bytes
  | .entered c' => if c = c' then [welcomeText] else []
  | .broadcast b members => if c ∈ members then [Broadcast.text b] else []
  | _ => []

/-- What a history posts to session `c`: the welcome, and each broadcast that reaches it, once. -/
def postedTo (c : ℕ) (history : List (Event ℕ Bytes)) : List Bytes := history.flatMap (heard c)

theorem postedTo_concat (c : ℕ) (history : List (Event ℕ Bytes)) (e : Event ℕ Bytes) :
    postedTo c (history ++ [e]) = postedTo c history ++ heard c e := by
  rw [postedTo, postedTo, List.flatMap_append, List.flatMap_singleton]

private theorem heard_left (c c' : ℕ) : heard c (.left c') = [] := rfl

private theorem heard_joined (c c' : ℕ) : heard c (.joined c') = [] := rfl

end Server

private theorem Session.posted_post (message : Bytes) (s : Session) :
    (s.post message).posted = s.posted ++ [message] := by
  by_cases hout : s.outgoing = []
  · rw [post_of_nil hout]
  · rw [post_of_ne_nil hout]

private theorem Session.posted_onWritten (s : Session) : s.onWritten.posted = s.posted := by
  rcases hout : s.outgoing with - | ⟨front, - | ⟨next, rest⟩⟩ <;>
    simp [onWritten, pop, hout, asyncWrite]

private theorem Session.posted_endWrite {s t : Session} {k : ℕ} {error : Bool}
    (h : s.endWrite k error = some t) : t.posted = s.posted := by
  obtain ⟨message, -, rfl⟩ := Option.map_eq_some_iff.mp h
  rcases error with - | -
  · exact posted_onWritten _
  · rfl

namespace Server

variable {s t : Server} {c : ℕ} {session : Session} {a : Action}

/-! ## The server and its room

`Serves` has the room and its state, that the clients are the members, and that what was posted to
each session is what its history says. Sessions that have left are still there, with operations that
may end, but nothing is posted to them; that is the case in which a second error finds the session
gone. -/

/-- The history is one of a room whose members are the clients, and it accounts for what was posted.
-/
structure Serves (s : Server) : Prop where
  room : ∃ r, Room.Allows s.history r ∧ r.seen = Finset.range s.accepted ∧ r.members = s.clients ∧
    r.owes = none
  posted : ∀ c, (s.sessions c).posted = postedTo c s.history
  fresh : ∀ c, s.accepted ≤ c → (s.sessions c).posted = []
  coupled : ∀ c, (s.sessions c).Coupled

namespace Serves

theorem initial : Serves {} :=
  ⟨⟨{}, rfl, rfl, rfl, rfl⟩, fun _ ↦ rfl, fun _ _ ↦ rfl, fun _ ↦ .initial []⟩

theorem setSession (hs : Serves s) (hposted : session.posted = (s.sessions c).posted)
    (hcoupled : session.Coupled) : Serves (s.setSession c session) := by
  have hsame : ∀ c', ((s.setSession c session).sessions c').posted = (s.sessions c').posted := by
    intro c'
    by_cases hc : c' = c
    · rw [hc, sessions_setSession, hposted]
    · rw [sessions_setSession_of_ne hc]
  refine ⟨hs.room, fun c' ↦ (hsame c').trans (hs.posted c'),
    fun c' hc' ↦ (hsame c').trans (hs.fresh c' hc'), fun c' ↦ ?_⟩
  by_cases hc : c' = c
  · rw [hc, sessions_setSession]
    exact hcoupled
  · rw [sessions_setSession_of_ne hc]
    exact hs.coupled c'

theorem asyncRead (hs : Serves s) (c : ℕ) : Serves (s.setSession c (s.sessions c).asyncRead) :=
  hs.setSession rfl ((hs.coupled c).congr (Session.sameWriting_asyncRead _))

private theorem lt_of_mem (hs : Serves s) (hc : c ∈ s.clients) : c < s.accepted := by
  obtain ⟨r, hr, hseen, hmembers, -⟩ := hs.room
  have hsub := (Room.account_of_allows hr).seen.1
  rw [hseen, hmembers] at hsub
  exact Finset.mem_range.mp (hsub hc)

end Serves

private theorem posted_post (b : Said) (s : Server) (c : ℕ) : ((s.post b).sessions c).posted
    = (s.sessions c).posted ++ heard c (.broadcast b s.clients) := by
  simp only [post, note, heard]
  split_ifs
  · rw [Session.posted_post]
  · rw [List.append_nil]

private theorem coupled_post {b : Said} (h : ∀ c, (s.sessions c).Coupled) (c : ℕ) :
    ((s.post b).sessions c).Coupled := by
  simp only [post, note]
  split_ifs
  · exact (h c).post _
  · exact h c

namespace Serves

theorem said (hs : Serves s) (text : Bytes) : Serves (s.post (.said text)) := by
  constructor
  · obtain ⟨r, hr, hseen, hmembers, howes⟩ := hs.room
    have hsaid := Room.allows_said hr howes text
    rw [hmembers] at hsaid
    exact ⟨r, hsaid, hseen, hmembers, howes⟩
  · intro c
    rw [posted_post, hs.posted]
    exact (postedTo_concat c _ _).symm
  · intro c hc
    rw [posted_post, hs.fresh c hc, heard, if_neg fun hmem ↦ (hs.lt_of_mem hmem).not_ge hc]
    rfl
  · exact coupled_post hs.coupled

/-- A session that fails leaves, if it has not left before. -/
theorem onError (hs : Serves s) (c : ℕ) : Serves (s.onError c) := by
  rw [Server.onError]
  by_cases hmem : c ∈ s.clients
  · rw [if_pos hmem]
    have hposted : ∀ c', (((s.erase c).post (.farewell c)).sessions c').posted
        = (s.sessions c').posted ++ heard c' (.broadcast (.farewell c) (s.clients.erase c)) :=
      posted_post (.farewell c) (s.erase c)
    constructor
    · -- The member leaves, and its farewell follows at once.
      obtain ⟨r, hr, hseen, hmembers, howes⟩ := hs.room
      have hleave := Room.allows_leave hr howes (hmembers ▸ hmem)
      rw [hmembers] at hleave
      exact ⟨_, hleave, hseen, rfl, howes⟩
    · intro c'
      rw [hposted, hs.posted]
      change _ = postedTo c' (s.history ++ [.left c] ++ [.broadcast _ (s.clients.erase c)])
      rw [postedTo_concat, postedTo_concat, heard_left, List.append_nil]
    · -- Sessions that are not accepted yet are no clients, and hear nothing.
      intro c' hc'
      have hnot : c' ∉ s.clients.erase c := fun h ↦
        (hs.lt_of_mem (Finset.mem_of_mem_erase h)).not_ge hc'
      rw [hposted, hs.fresh c' hc', heard, if_neg hnot]
      rfl
    · exact coupled_post hs.coupled
  · rw [if_neg hmem]
    exact hs

/-- A session is accepted: it is welcomed, the clients are told, and it becomes one of them. -/
theorem onAccept (hs : Serves s) (peer : Bytes) (error : Bool) :
    Serves (s.onAccept peer error) := by
  set c := s.accepted with hc
  set client : Session := { peer, closed := error } with hclient
  set u := (note (.entered c) { s with accepted := c + 1 }).setSession c (client.post welcomeText)
    with hu
  have hnew : ∀ c', (u.sessions c').posted = postedTo c' (s.history ++ [.entered c]) := by
    intro c'
    rw [postedTo_concat, ← hs.posted]
    by_cases hcc : c' = c
    · rw [hcc, hu, sessions_setSession, Session.posted_post, hs.fresh c le_rfl, heard, if_pos rfl]
    · rw [hu, sessions_setSession_of_ne hcc, heard, if_neg hcc, List.append_nil]
      rfl
  have hcoupled : ∀ c', (u.sessions c').Coupled := by
    intro c'
    by_cases hcc : c' = c
    · rw [hcc, hu, sessions_setSession]
      have hclientCoupled : client.Coupled :=
        (Session.Coupled.initial peer).congr ⟨rfl, rfl, rfl, rfl, rfl, rfl, rfl⟩
      exact hclientCoupled.post _
    · rw [hu, sessions_setSession_of_ne hcc]
      exact hs.coupled c'
  -- What is said is heard by the clients there were, since the new one is inserted afterwards.
  have hjoined : Serves ((u.post (.said newcomerText)).insert c) := by
    constructor
    · obtain ⟨r, hr, hseen, hmembers, howes⟩ := hs.room
      have hnotSeen : c ∉ r.seen := by rw [hseen, Finset.mem_range]; exact lt_irrefl c
      have henter := Room.allows_enter hr howes hnotSeen newcomerText
      rw [hmembers] at henter
      refine ⟨_, henter, ?_, rfl, howes⟩
      rw [hseen]
      exact Finset.range_add_one.symm
    · intro c'
      calc ((u.post (.said newcomerText)).sessions c').posted
          = postedTo c' (s.history ++ [.entered c])
            ++ heard c' (.broadcast (.said newcomerText) s.clients) := by
            rw [posted_post, hnew]
            rfl
        _ = postedTo c' (s.history ++ [.entered c]
            ++ [.broadcast (.said newcomerText) s.clients]) := (postedTo_concat _ _ _).symm
        _ = postedTo c' (s.history ++ [.entered c] ++ [.broadcast (.said newcomerText) s.clients]
            ++ [.joined c]) := by
          rw [postedTo_concat _ _ (.joined c), heard_joined, List.append_nil]
    · intro c' hc'
      have hlt : s.accepted < c' := hc'
      have hnot : c' ∉ s.clients := fun hmem ↦ (hs.lt_of_mem hmem).not_ge hlt.le
      change ((u.post (.said newcomerText)).sessions c').posted = []
      rw [posted_post, hu, sessions_setSession_of_ne hlt.ne']
      change (s.sessions c').posted ++ heard c' (.broadcast _ s.clients) = []
      rw [hs.fresh c' hlt.le, heard, if_neg hnot]
      rfl
    · exact coupled_post hcoupled
  exact hjoined.asyncRead c

private theorem setSame (hs : Serves s) (h : Session.SameWriting (s.sessions c) session) :
    Serves (s.setSession c session) :=
  hs.setSession h.posted ((hs.coupled c).congr h)

theorem onRead (hs : Serves s) (c n : ℕ) : Serves (s.onRead c n) := by
  have hread : Serves (s.setSession c ((s.sessions c).readMessage n).2) :=
    hs.setSame (Session.sameWriting_readMessage n _)
  exact (hread.said _).asyncRead c

/-- **One step.** -/
theorem step (hs : Serves s) (h : Step s t) : Serves t := by
  obtain ⟨a, ha⟩ := h
  rcases a with ⟨peer, error⟩ | ⟨c, data⟩ | ⟨c, - | -⟩ | ⟨c, k, error⟩
  · exact Option.some_inj.mp ha ▸ hs.onAccept peer error
  · obtain ⟨session, hsession, rfl⟩ := Option.map_eq_some_iff.mp ha
    exact hs.setSame (Session.sameWriting_arrive hsession)
  · obtain ⟨session, hsession, ha⟩ := Option.bind_eq_some_iff.mp ha
    obtain ⟨n, -, ha⟩ := Option.bind_eq_some_iff.mp ha
    obtain rfl := Option.some_inj.mp ha
    exact (hs.setSame (Session.sameWriting_endRead hsession)).onRead c n
  · obtain ⟨session, hsession, rfl⟩ := Option.map_eq_some_iff.mp ha
    have hclosed := (Session.sameWriting_endRead hsession).trans (Session.sameWriting_close session)
    exact (hs.setSame hclosed).onError c
  · obtain ⟨session, hsession, rfl⟩ := Option.map_eq_some_iff.mp ha
    have hwritten : Serves (s.setSession c session) :=
      hs.setSession (Session.posted_endWrite hsession) ((hs.coupled c).endWrite hsession)
    rcases error with - | -
    · exact hwritten
    · exact hwritten.onError c

/-- **A run.** -/
theorem of_reachable (hs : Reachable IsInitial Step s) : Serves s := by
  apply hs.invariant
  · rintro s rfl
    exact initial
  · exact fun s t _ hs hst ↦ hs.step hst

end Serves

/-- **What the server says.** In every run each session leaves at most once, and the others are told
exactly once; the calls of `post` of a session are its welcome and then each broadcast that was made
while it was a client, once; and nothing is posted to a session after it has left. -/
theorem broadcasts_of_reachable (hs : Reachable IsInitial Step s) :
    (∀ c, s.history.countP (Event.isLeft c) ≤ 1) ∧
    (∀ c, s.history.countP (Event.isFarewell c) = s.history.countP (Event.isLeft c)) ∧
    s.clients = membersAfter s.history ∧
    (∀ before b members after, s.history = before ++ .broadcast b members :: after →
      members = membersAfter before) ∧
    (∀ c, (s.sessions c).posted = postedTo c s.history) ∧
    ∀ before c after, s.history = before ++ .left c :: after → postedTo c after = [] := by
  have hserves := Serves.of_reachable hs
  obtain ⟨r, hr, -, hmembers, howes⟩ := hserves.room
  refine ⟨Room.countP_isLeft_le hr, Room.countP_isFarewell hr howes, ?_, ?_, hserves.posted, ?_⟩
  · rw [← hmembers, (Room.account_of_allows hr).members]
  · rintro before b members after hhistory
    rw [hhistory] at hr
    exact Room.members_of_broadcast hr
  · rintro before c after hhistory
    refine List.flatMap_eq_nil_iff.mpr fun e he ↦ ?_
    -- After the member has left, it neither enters again nor is among those who are told something.
    obtain ⟨mid, rest, rfl⟩ := List.append_of_mem he
    rw [hhistory, ← List.cons_append, ← List.append_assoc] at hr
    rcases e with c' | c' | c' | ⟨b, members⟩
    · rw [heard, if_neg]
      rintro rfl
      exact Room.not_entered_of_left hr
    · rfl
    · rfl
    · rw [heard, if_neg (Room.notMem_of_left hr)]

/-- The read and then the write of the first of two sessions fail. -/
def bothFail : List Action :=
  [.accept (ascii "p") false, .accept (ascii "q") false, .read 0 true, .write 0 0 true]

theorem broadcasts_of_reachable_bothFail :
    ∃ s, Reachable IsInitial Step s ∧ s.clients = {1} ∧
      s.history.countP (Event.isLeft 0) = 1 ∧ s.history.countP (Event.isFarewell 0) = 1 ∧
        (s.sessions 1).posted = postedTo 1 s.history := by
  have hs : (execute act bothFail {}).any (fun s ↦ s.clients = {1} ∧
      s.history.countP (Event.isLeft 0) = 1) = true := by decide +kernel
  obtain ⟨s, hrun, hclients, hleft⟩ := exists_of_execute hs
  have hreach : Reachable IsInitial Step s := reachable_of_execute (.start rfl) hrun
  obtain ⟨-, hfarewell, -, -, hposted, -⟩ := broadcasts_of_reachable hreach
  exact ⟨s, hreach, hclients, hleft, (hfarewell 0).trans hleft, hposted 1⟩

end Server

end Chat

end CppRepo
