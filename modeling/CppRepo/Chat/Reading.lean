import CppRepo.Chat.Session
import CppRepo.Library.Lines

/-!
# What a session makes of the bytes it receives

`on_read` is called when there is a line end in `streambuf`, and is told where the first one is. It
then passes on all that is in `streambuf`. So a message is a line only if nothing had come after its
line end yet; and whether something had come depends on how the bytes were cut on their way.

The bytes arrive between other things that happen to the session, so the statements are about all
runs in which the socket has not been closed.

## When the cut matters

A message is passed on with everything that is in the buffer. So if each piece that arrives has its
line end at its end, or none at all, the messages are the lines. If one piece has more behind its
line end, this goes into the message, too, and the line it belongs to is lost as a line. The pieces
are the `arrived` of the session, and the statement about the lines is an equivalence between a
condition on them and one on the messages.
-/

namespace CppRepo

namespace Chat

namespace Session

variable {s t : Session} {k : ℕ} {error : Bool} {message : Bytes}

/-! ## What reading does not depend on

Posting and writing have their own fields. All that reading looks at is the buffer, what was passed
on and what has arrived, and whether the socket is open. -/

/-- `t` differs from `s` in nothing that concerns the messages that are read. -/
structure SameReading (s t : Session) : Prop where
  peer : t.peer = s.peer
  closed : t.closed = s.closed
  streambuf : t.streambuf = s.streambuf
  arrived : t.arrived = s.arrived
  messages : t.messages = s.messages

theorem sameReading_post (message : Bytes) (s : Session) : SameReading s (s.post message) := by
  by_cases hout : s.outgoing = []
  · rw [post_of_nil hout]
    exact ⟨rfl, rfl, rfl, rfl, rfl⟩
  · rw [post_of_ne_nil hout]
    exact ⟨rfl, rfl, rfl, rfl, rfl⟩

theorem sameReading_onWritten (s : Session) : SameReading s s.onWritten := by
  rcases hout : s.outgoing with - | ⟨front, - | ⟨next, rest⟩⟩ <;>
    simp only [onWritten, pop, hout, List.isEmpty_nil, List.isEmpty_cons, if_true, if_false,
      Bool.false_eq_true, asyncWrite] <;>
    exact ⟨rfl, rfl, rfl, rfl, rfl⟩

private theorem sameReading_endWrite (h : s.endWrite k error = some t) :
    t.closed = true ∨ SameReading s t := by
  obtain ⟨message, -, rfl⟩ := Option.map_eq_some_iff.mp h
  rcases error with - | -
  · obtain ⟨hpeer, hclosed, hstreambuf, harrived, hmessages⟩ := sameReading_onWritten
      { s with writes := s.writes.eraseIdx k, completed := s.completed ++ [message] }
    exact Or.inr ⟨hpeer, hclosed, hstreambuf, harrived, hmessages⟩
  · exact Or.inl rfl

/-! ## The messages of a run

`Takes` says that the text of the messages, followed by what is in the buffer, is all that has
arrived. It is a statement about sessions whose socket is open, and a step that leaves it open keeps
it. -/

private theorem mem_of_lineLength {text : Bytes} {n : ℕ} (h : lineLength text = some n) :
    newline ∈ text := by
  obtain ⟨i, hi, -⟩ := Option.map_eq_some_iff.mp h
  obtain ⟨hlt, hat, -⟩ := List.findIdx?_eq_some_iff_getElem.mp hi
  exact of_decide_eq_true hat ▸ List.getElem_mem hlt

private theorem exists_of_read (h : act (.read false) s = some t) : newline ∈ s.streambuf ∧
    ∃ n, t = ({ s with reads := s.reads - 1 }.readMessage n).2.asyncRead := by
  obtain ⟨u, hu, h⟩ := Option.bind_eq_some_iff.mp h
  obtain ⟨n, hn, h⟩ := Option.bind_eq_some_iff.mp h
  obtain ⟨-, hu⟩ := Option.ite_none_left_eq_some.mp hu
  obtain rfl := Option.some_inj.mp hu
  exact ⟨mem_of_lineLength hn, n, (Option.some_inj.mp h).symm⟩

/-- What stands before each message. -/
def addressPrefix (s : Session) : Bytes := s.peer ++ ascii ": "

/-- All that has come is passed on whenever there is a line end in it, up to a call of `on_read`
that is due. -/
def Takes (s : Session) : Prop :=
  let bursts := (burstsFrom newline [] s.arrived).map (s.addressPrefix ++ ·)
  let held := heldFrom newline [] s.arrived
  if newline ∈ s.streambuf then
    s.messages ++ [s.addressPrefix ++ s.streambuf] = bursts ∧ held = []
  else s.messages = bursts ∧ s.streambuf = held

namespace Takes

theorem initial (peer : Bytes) : Takes { peer } := ⟨rfl, rfl⟩

theorem congr (ht : Takes s) (h : SameReading s t) : Takes t := by
  rw [Takes, addressPrefix, h.peer, h.streambuf, h.arrived, h.messages]
  exact ht

theorem arrive {data : Bytes} (ht : Takes s) (h : s.arrive data = some t) : Takes t := by
  obtain ⟨⟨-, hnone⟩, rfl⟩ := of_ite_some h
  obtain ⟨hmessages, hheld⟩ : s.messages = _ ∧ s.streambuf = _ := by rwa [Takes, if_neg hnone] at ht
  simp only [Takes, addressPrefix, burstsFrom_concat, heldFrom_concat, ← hheld]
  split_ifs
  · refine ⟨?_, rfl⟩
    rw [List.map_append, ← addressPrefix, ← hmessages]
    rfl
  · refine ⟨?_, rfl⟩
    rw [List.append_nil]
    exact hmessages

theorem read (ht : Takes s) (hopen : s.closed = false) (h : act (.read false) s = some t) :
    Takes t := by
  obtain ⟨hline, n, rfl⟩ := exists_of_read h
  obtain ⟨hmessages, hheld⟩ : _ ∧ heldFrom newline [] s.arrived = [] := by
    rwa [Takes, if_pos hline] at ht
  simp only [Takes, asyncRead, readMessage, remoteEndpoint, hopen, Bool.false_eq_true, if_false,
    List.drop_length, List.drop_nil, List.not_mem_nil]
  exact ⟨hmessages, hheld.symm⟩

/-- **One step.** -/
theorem step (ht : s.closed = false → Takes s) (h : Step s t) (hopen : t.closed = false) :
    Takes t := by
  obtain ⟨a, ha⟩ := h
  have hsame : SameReading s t → Takes t := fun hst ↦ (ht (hst.closed ▸ hopen)).congr hst
  -- Only arrivals and reads change what the messages depend on, and an error closes the socket.
  rcases a with message | - | data | error | ⟨k, error⟩
  · exact hsame (Option.some_inj.mp ha ▸ sameReading_post message s)
  · exact hsame (Option.some_inj.mp ha ▸ ⟨rfl, rfl, rfl, rfl, rfl⟩)
  · have hclosed : t.closed = s.closed := by
      obtain ⟨-, ha⟩ := Option.ite_none_right_eq_some.mp ha
      exact Option.some_inj.mp ha ▸ rfl
    exact (ht (hclosed ▸ hopen)).arrive ha
  · rcases error with - | -
    · have hclosed : t.closed = s.closed := by
        obtain ⟨-, n, rfl⟩ := exists_of_read ha
        rfl
      have hs : s.closed = false := hclosed ▸ hopen
      exact (ht hs).read hs ha
    · obtain ⟨u, -, rfl⟩ := Option.map_eq_some_iff.mp ha
      exact Bool.noConfusion hopen
  · rcases sameReading_endWrite ha with hclosed | hst
    · exact Bool.noConfusion (hopen.symm.trans hclosed)
    · exact hsame hst

theorem of_reachable (hs : Reachable IsInitial Step s) : s.closed = false → Takes s := by
  apply hs.invariant
  · rintro s ⟨peer, rfl⟩ -
    exact initial peer
  · exact fun s t _ ht hst ↦ step ht hst

end Takes

/-! ## Lines

`ReadsLines` compares the messages with the lines of the text. It can be decided, as both are lists
that were computed already. -/

/-- The messages are the lines of the text that has arrived, with the address before each of them,
and what follows the lines is held back. -/
def ReadsLines (s : Session) : Prop :=
  s.messages = (linesFrom newline [] s.arrived.flatten).map (s.addressPrefix ++ ·) ∧
    s.streambuf = restFrom newline [] s.arrived.flatten

instance (s : Session) : Decidable s.ReadsLines := inferInstanceAs (Decidable (_ ∧ _))

/-- Then each message has one line end, at its end, and all that has come is in the messages or held
back. -/
theorem ReadsLines.exists_texts (h : s.ReadsLines) :
    ∃ texts : List Bytes,
      s.messages = texts.map (fun text ↦ s.addressPrefix ++ (text ++ [newline])) ∧
      (∀ text ∈ texts, newline ∉ text) ∧ newline ∉ s.streambuf ∧
      (texts.map (· ++ [newline])).flatten ++ s.streambuf = s.arrived.flatten := by
  obtain ⟨hmessages, hheld⟩ := h
  have hline : ∀ line ∈ linesFrom newline [] s.arrived.flatten,
      line.dropLast ++ [newline] = line ∧ newline ∉ line.dropLast := by
    intro line hmem
    obtain ⟨body, rfl, hbody⟩ := exists_of_mem_linesFrom List.not_mem_nil hmem
    rw [List.dropLast_concat]
    exact ⟨rfl, hbody⟩
  have hlines : ((linesFrom newline [] s.arrived.flatten).map List.dropLast).map (· ++ [newline])
      = linesFrom newline [] s.arrived.flatten := by
    rw [List.map_map]
    calc
      _ = (linesFrom newline [] s.arrived.flatten).map id :=
        List.map_congr_left fun line hmem ↦ (hline line hmem).1
      _ = linesFrom newline [] s.arrived.flatten := List.map_id _
  refine ⟨(linesFrom newline [] s.arrived.flatten).map List.dropLast, ?_, ?_, ?_, ?_⟩
  · rw [hmessages, List.map_map]
    exact List.map_congr_left fun line hmem ↦
      congrArg (s.addressPrefix ++ ·) (hline line hmem).1.symm
  · intro text htext
    obtain ⟨line, hmem, rfl⟩ := List.mem_map.mp htext
    exact (hline line hmem).2
  · rw [hheld]
    exact notMem_restFrom List.not_mem_nil _
  · rw [hlines, hheld, flatten_linesFrom, List.nil_append]

/-- **When the messages are the lines.** While the socket is open and no call of `on_read` is due,
the messages are the lines of the text if and only if each piece of it that arrived had a line end
at most at its end. -/
theorem readsLines_iff (hs : Reachable IsInitial Step s) (hopen : s.closed = false)
    (hidle : newline ∉ s.streambuf) :
    s.ReadsLines ↔ ∀ piece ∈ s.arrived, newline ∉ piece.dropLast := by
  obtain ⟨hmessages, hheld⟩ : s.messages = _ ∧ s.streambuf = _ := by
    have ht := Takes.of_reachable hs hopen
    rwa [Takes, if_neg hidle] at ht
  have hinj : Function.Injective (List.map (s.addressPrefix ++ ·)) :=
    List.map_injective_iff.mpr (List.append_right_injective _)
  rw [ReadsLines, hmessages, hheld, hinj.eq_iff, burstsFrom_eq_linesFrom_iff List.not_mem_nil]
  exact and_iff_left_of_imp fun h ↦ heldFrom_eq_restFrom List.not_mem_nil h

/-- Two lines of a client arrive one after the other, the second in two pieces. -/
def lineByLine : List Action :=
  [.start, .arrive (ascii "a\n"), .read false, .arrive (ascii "b"), .arrive (ascii "c\n"),
    .read false]

/-- The same text arrives with the begin of the second line behind the first. -/
def burst : List Action :=
  [.start, .arrive (ascii "a\nb"), .read false, .arrive (ascii "c\n"), .read false]

theorem readsLines_iff_lineByLine :
    ∃ s, Reachable IsInitial Step s ∧ s.arrived.flatten = ascii "a\nbc\n" ∧ s.ReadsLines := by
  have hs : (execute act lineByLine { peer := ascii "p" }).any (fun s ↦
      s.arrived = [ascii "a\n", ascii "b", ascii "c\n"] ∧ s.closed = false ∧
        newline ∉ s.streambuf) = true := by decide +kernel
  obtain ⟨s, hrun, harrived, hopen, hidle⟩ := exists_of_execute hs
  have hreach : Reachable IsInitial Step s := reachable_of_execute (.start ⟨ascii "p", rfl⟩) hrun
  refine ⟨s, hreach, ?_, (readsLines_iff hreach hopen hidle).mpr ?_⟩
  · rw [harrived]
    decide +kernel
  · rw [harrived]
    decide +kernel

/-- The begin of the second line is passed on with the first, and the rest of it as a message. -/
theorem burst_not_readsLines :
    ∃ s t, Reachable IsInitial Step s ∧ Reachable IsInitial Step t ∧ s.peer = t.peer ∧
      s.closed = false ∧ newline ∉ s.streambuf ∧ t.closed = false ∧ newline ∉ t.streambuf ∧
      s.arrived.flatten = t.arrived.flatten ∧ s.messages ≠ t.messages ∧ ¬ s.ReadsLines := by
  have hs : (execute act burst { peer := ascii "p" }).any (fun s ↦
      (s.peer = ascii "p" ∧ s.closed = false ∧ newline ∉ s.streambuf) ∧
        s.arrived.flatten = ascii "a\nbc\n" ∧ s.messages = [ascii "p: a\nb", ascii "p: c\n"] ∧
          ¬ s.ReadsLines) = true := by decide +kernel
  have ht : (execute act lineByLine { peer := ascii "p" }).any (fun s ↦
      (s.peer = ascii "p" ∧ s.closed = false ∧ newline ∉ s.streambuf) ∧
        s.arrived.flatten = ascii "a\nbc\n" ∧
          s.messages = [ascii "p: a\n", ascii "p: bc\n"]) = true := by decide +kernel
  obtain ⟨s, hsrun, ⟨hspeer, hsopen, hsidle⟩, hstext, hsmessages, hnot⟩ := exists_of_execute hs
  obtain ⟨t, htrun, ⟨htpeer, htopen, htidle⟩, httext, htmessages⟩ := exists_of_execute ht
  refine ⟨s, t, reachable_of_execute (.start ⟨ascii "p", rfl⟩) hsrun,
    reachable_of_execute (.start ⟨ascii "p", rfl⟩) htrun, hspeer.trans htpeer.symm, hsopen, hsidle,
    htopen, htidle, hstext.trans httext.symm, ?_, hnot⟩
  rw [hsmessages, htmessages]
  decide +kernel

end Session

end Chat

end CppRepo
