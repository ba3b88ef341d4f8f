import CppRepo.Library.Transition

/-!
# A room

What the chat server is for: members enter a room and leave it, and what is said in the room reaches
those who are in it. A room is given by the histories it allows. Each event is allowed or not, and
what is allowed next depends on who has been seen, who is a member, who is gone, and whether a
farewell is owed.

The facts about a history follow from what it leaves behind (`Room.Account`): a member that is gone
does not come back, so nobody leaves twice and nothing reaches those who have left.

## The events

An event is that somebody enters, joins or leaves, or that something is said to the members of that
moment. `allow` is the rule of the room: one who was never seen may enter, one who has entered may
join and is a member from then on, and a member may leave; then the farewell is owed, and nothing
else is allowed before it is said. A broadcast is addressed to exactly the members.
-/

namespace CppRepo

namespace Chat

private theorem countP_concat_of_false {α : Type*} {p : α → Bool} {a : α} (h : p a = false)
    (as : List α) : (as ++ [a]).countP p = as.countP p := by
  rw [List.countP_append, List.countP_singleton, h]
  rfl

variable {ι τ : Type} [DecidableEq ι]

/-- What is said to all members: a text, or that a member has left. -/
inductive Broadcast (ι τ : Type)
  | said (text : τ)
  | farewell (c : ι)

/-- What happens in a room. A broadcast is recorded with the members it reaches. -/
inductive Event (ι τ : Type)
  | entered (c : ι)
  | joined (c : ι)
  | left (c : ι)
  | broadcast (b : Broadcast ι τ) (members : Finset ι)

/-- The room between two events. -/
structure Room (ι : Type) where
  seen : Finset ι := ∅
  members : Finset ι := ∅
  gone : Finset ι := ∅
  /-- A member has left, and this has not been said. -/
  owes : Option ι := none

namespace Room

/-- The room after an event, if it allows the event. -/
def allow : Event ι τ → Room ι → Option (Room ι)
  | .entered c, r =>
    if r.owes = none ∧ c ∉ r.seen then some { r with seen := insert c r.seen } else none
  | .joined c, r =>
    if r.owes = none ∧ c ∈ r.seen ∧ c ∉ r.members ∧ c ∉ r.gone then
      some { r with members := insert c r.members }
    else none
  | .left c, r =>
    if r.owes = none ∧ c ∈ r.members then
      some { r with members := r.members.erase c, gone := insert c r.gone, owes := some c }
    else none
  | .broadcast (.said _) members, r => if r.owes = none ∧ members = r.members then some r else none
  | .broadcast (.farewell c) members, r =>
    if r.owes = some c ∧ members = r.members then some { r with owes := none } else none

/-- The history is one the room allows, and leaves it like this. -/
def Allows (history : List (Event ι τ)) (r : Room ι) : Prop := execute allow history {} = some r

end Room

/-! ## What a history says

`membersAfter` reads the members off a history. `Account` ties the state of the room to its history:
who was seen, who is a member, who is gone, and how many farewells there were of each. -/

namespace Event

/-- This member leaves. -/
def isLeft (c : ι) : Event ι τ → Bool
  | .left c' => c = c'
  | _ => false

/-- The others are told that this member has left. -/
def isFarewell (c : ι) : Event ι τ → Bool
  | .broadcast (.farewell c') _ => c = c'
  | _ => false

/-- The members after an event. -/
def members (e : Event ι τ) (current : Finset ι) : Finset ι :=
  match e with
  | .joined c => insert c current
  | .left c => current.erase c
  | _ => current

end Event

/-- The members at the end of a history. -/
def membersAfter (history : List (Event ι τ)) : Finset ι := 
  history.foldl (fun current e ↦ e.members current) ∅

private theorem membersAfter_concat (history : List (Event ι τ)) (e : Event ι τ) :
    membersAfter (history ++ [e]) = e.members (membersAfter history) := by
  rw [membersAfter, List.foldl_append]
  rfl

namespace Room

variable {history : List (Event ι τ)} {e : Event ι τ} {r : Room ι} {c : ι}

theorem allows_concat :
    Allows (history ++ [e]) r ↔ ∃ r₀, Allows history r₀ ∧ allow e r₀ = some r := by
  rw [Allows, execute_concat, Option.bind_eq_some_iff]
  rfl

theorem allows_said (hr : Allows history r) (howes : r.owes = none) (text : τ) :
    Allows (history ++ [.broadcast (.said text) r.members]) r := by
  refine allows_concat.mpr ⟨r, hr, ?_⟩
  rw [allow, if_pos ⟨howes, rfl⟩]

theorem allows_leave (hr : Allows history r) (howes : r.owes = none) (hc : c ∈ r.members) :
    Allows (history ++ [.left c] ++ [.broadcast (.farewell c) (r.members.erase c)])
      { r with members := r.members.erase c, gone := insert c r.gone } := by
  refine allows_concat.mpr ⟨{ r with
    members := r.members.erase c
    gone := insert c r.gone
    owes := some c }, allows_concat.mpr ⟨r, hr, ?_⟩, ?_⟩
  · rw [allow, if_pos ⟨howes, hc⟩]
  · rw [allow, if_pos ⟨rfl, rfl⟩, howes]

/-- What is left of a history. -/
structure Account (history : List (Event ι τ)) (r : Room ι) : Prop where
  members : r.members = membersAfter history
  left : ∀ c, history.countP (Event.isLeft c) = if c ∈ r.gone then 1 else 0
  farewells : ∀ c, history.countP (Event.isFarewell c) + (if r.owes = some c then 1 else 0)
    = history.countP (Event.isLeft c)
  apart : ∀ c ∈ r.members, c ∉ r.gone
  seen : r.members ⊆ r.seen ∧ r.gone ⊆ r.seen

theorem Account.initial : Account ([] : List (Event ι τ)) {} := by
  constructor
  · rfl
  · exact fun _ ↦ rfl
  · exact fun _ ↦ rfl
  · exact fun _ h ↦ absurd h (Finset.notMem_empty _)
  · exact ⟨subset_rfl, subset_rfl⟩

private theorem countP_isLeft_left (c c' : ι) : (history ++ [Event.left c]).countP (Event.isLeft c')
    = history.countP (Event.isLeft c') + if c' = c then 1 else 0 := by
  rw [List.countP_append, List.countP_singleton, Event.isLeft]
  simp only [decide_eq_true_eq]

private theorem countP_isFarewell_farewell (c c' : ι) (members : Finset ι) :
    (history ++ [Event.broadcast (.farewell c) members]).countP (Event.isFarewell c')
      = history.countP (Event.isFarewell c') + if c' = c then 1 else 0 := by
  rw [List.countP_append, List.countP_singleton, Event.isFarewell]
  simp only [decide_eq_true_eq]

/-- An event by which nobody joins or leaves, and that is no farewell. -/
theorem Account.quiet {r₀ : Room ι} (ha : Account history r₀) (hmembers : r.members = r₀.members)
    (hgone : r.gone = r₀.gone) (hseen : r₀.seen ⊆ r.seen) (howes : r.owes = r₀.owes)
    (hnone : e.members = id) (hleft : ∀ c, Event.isLeft c e = false)
    (hfarewell : ∀ c, Event.isFarewell c e = false) : Account (history ++ [e]) r := by
  constructor
  · rw [membersAfter_concat, hmembers, ha.members, hnone, id]
  · intro c
    rw [countP_concat_of_false (hleft c), hgone]
    exact ha.left c
  · intro c
    rw [countP_concat_of_false (hleft c), countP_concat_of_false (hfarewell c), howes]
    exact ha.farewells c
  · rw [hmembers, hgone]
    exact ha.apart
  · rw [hmembers, hgone]
    exact ⟨ha.seen.1.trans hseen, ha.seen.2.trans hseen⟩

theorem Account.join (ha : Account history r) (hseen : c ∈ r.seen) (hgone : c ∉ r.gone) :
    Account (history ++ [.joined c]) { r with members := insert c r.members } := by
  constructor
  · rw [membersAfter_concat, ← ha.members]
    rfl
  · exact fun c' ↦ (countP_concat_of_false rfl _).trans (ha.left c')
  · intro c'
    rw [countP_concat_of_false rfl, countP_concat_of_false rfl]
    exact ha.farewells c'
  · intro c' hc'
    rcases Finset.mem_insert.mp hc' with rfl | hc'
    · exact hgone
    · exact ha.apart c' hc'
  · exact ⟨Finset.insert_subset hseen ha.seen.1, ha.seen.2⟩

/-- The one who leaves is a member, so it has not left before. -/
theorem Account.leave (ha : Account history r) (howes : r.owes = none) (hmem : c ∈ r.members) :
    Account (history ++ [.left c])
      { r with members := r.members.erase c, gone := insert c r.gone, owes := some c } := by
  have hzero : history.countP (Event.isLeft c) = 0 := by
    rw [ha.left c, if_neg (ha.apart c hmem)]
  constructor
  · rw [membersAfter_concat, ← ha.members]
    rfl
  · intro c'
    rw [countP_isLeft_left]
    by_cases hc : c' = c
    · rw [if_pos hc, hc, hzero, if_pos (Finset.mem_insert_self _ _)]
    · rw [if_neg hc, ha.left c', add_zero]
      simp only [Finset.mem_insert, hc, false_or]
  · intro c'
    have hold := ha.farewells c'
    rw [howes, if_neg (Option.some_ne_none c').symm, add_zero] at hold
    rw [countP_concat_of_false rfl, countP_isLeft_left, hold]
    simp only [Option.some_inj, eq_comm]
  · intro c' hc'
    obtain ⟨hne, hc'⟩ := Finset.mem_erase.mp hc'
    rw [Finset.mem_insert, not_or]
    exact ⟨hne, ha.apart c' hc'⟩
  · exact ⟨(Finset.erase_subset _ _).trans ha.seen.1,
      Finset.insert_subset (ha.seen.1 hmem) ha.seen.2⟩

/-- The farewell that was owed is said. -/
theorem Account.farewell (ha : Account history r) (howes : r.owes = some c)
    (members : Finset ι) :
    Account (history ++ [.broadcast (.farewell c) members]) { r with owes := none } := by
  constructor
  · rw [membersAfter_concat, ← ha.members]
    rfl
  · exact fun c' ↦ (countP_concat_of_false rfl _).trans (ha.left c')
  · intro c'
    have hold := ha.farewells c'
    rw [howes] at hold
    rw [countP_isFarewell_farewell, if_neg (Option.some_ne_none c').symm, add_zero,
      countP_concat_of_false rfl, ← hold]
    simp only [Option.some_inj, eq_comm]
  · exact ha.apart
  · exact ha.seen

/-- **One event.** -/
theorem Account.concat {r₀ : Room ι} (ha : Account history r₀) (h : allow e r₀ = some r) :
    Account (history ++ [e]) r := by
  rcases e with c | c | c | ⟨text | c, members⟩ <;>
    obtain ⟨hallow, h⟩ := Option.ite_none_right_eq_some.mp h <;>
    obtain rfl := Option.some_inj.mp h
  case entered =>
    exact ha.quiet rfl rfl (Finset.subset_insert _ _) rfl rfl (fun _ ↦ rfl) fun _ ↦ rfl
  case joined => exact ha.join hallow.2.1 hallow.2.2.2
  case left => exact ha.leave hallow.1 hallow.2
  case broadcast.said => exact ha.quiet rfl rfl subset_rfl rfl rfl (fun _ ↦ rfl) fun _ ↦ rfl
  case broadcast.farewell => exact ha.farewell hallow.1 members

theorem account_of_allows (h : Allows history r) : Account history r := by
  induction history using List.reverseRecOn generalizing r with
  | nil => exact Option.some_inj.mp h ▸ .initial
  | append_singleton history e ih =>
    obtain ⟨r₀, h₀, he⟩ := allows_concat.mp h
    exact (ih h₀).concat he

/-- Somebody enters, the members are told, and there is one member more. -/
theorem allows_enter (hr : Allows history r) (howes : r.owes = none) (hc : c ∉ r.seen) (text : τ) :
    Allows (history ++ [.entered c] ++ [.broadcast (.said text) r.members] ++ [.joined c])
      { r with seen := insert c r.seen, members := insert c r.members } := by
  have hentered : Allows (history ++ [.entered c]) { r with seen := insert c r.seen } := by
    refine allows_concat.mpr ⟨r, hr, ?_⟩
    rw [allow, if_pos ⟨howes, hc⟩]
  obtain ⟨hmembers, hgone⟩ := (account_of_allows hr).seen
  refine allows_concat.mpr ⟨_, allows_said hentered howes text, ?_⟩
  rw [allow, if_pos ⟨howes, Finset.mem_insert_self c _, fun h ↦ hc (hmembers h),
    fun h ↦ hc (hgone h)⟩]

/-! ## What holds of the histories of a room

The account of a history holds of each of its beginnings, too, since these were allowed. So what is
said about the end of a history is said about every moment of it. -/

theorem countP_isLeft_le (h : Allows history r) (c : ι) : history.countP (Event.isLeft c) ≤ 1 := by
  rw [(account_of_allows h).left c]
  split_ifs
  · exact le_rfl
  · exact Nat.zero_le 1

/-- If no farewell is owed, as many were said as members have left. -/
theorem countP_isFarewell (h : Allows history r) (howes : r.owes = none) (c : ι) :
    history.countP (Event.isFarewell c) = history.countP (Event.isLeft c) := by
  rw [← (account_of_allows h).farewells c, howes, if_neg (Option.some_ne_none c).symm, add_zero]

variable {before mid after : List (Event ι τ)} {b : Broadcast ι τ} {members : Finset ι}

private theorem exists_allows_of_append (h : Allows (before ++ e :: after) r) :
    ∃ r₀ r₁, Allows before r₀ ∧ allow e r₀ = some r₁ := by
  rw [Allows, execute_append, Option.bind_eq_some_iff] at h
  obtain ⟨r₀, h₀, h⟩ := h
  obtain ⟨r₁, h₁, -⟩ := Option.bind_eq_some_iff.mp h
  exact ⟨r₀, r₁, h₀, h₁⟩

/-- A broadcast reaches the members of that moment. -/
theorem members_of_broadcast (h : Allows (before ++ .broadcast b members :: after) r) :
    members = membersAfter before := by
  obtain ⟨r₀, r₁, h₀, h₁⟩ := exists_allows_of_append h
  rw [← (account_of_allows h₀).members]
  rcases b with text | c
  · exact (Option.ite_none_right_eq_some.mp h₁).1.2
  · exact (Option.ite_none_right_eq_some.mp h₁).1.2

private theorem mem_gone_of_left (h : Allows history r) (hc : .left c ∈ history) : c ∈ r.gone := by
  by_contra hgone
  have hzero := (account_of_allows h).left c
  rw [if_neg hgone, List.countP_eq_zero] at hzero
  exact hzero (.left c) hc (decide_eq_true rfl)

/-- What is said after a member has left does not reach it. -/
theorem notMem_of_left (h : Allows (before ++ .left c :: mid ++ .broadcast b members :: after) r) :
    c ∉ members := by
  obtain ⟨r₀, -, h₀, -⟩ := exists_allows_of_append h
  rw [members_of_broadcast h, ← (account_of_allows h₀).members]
  exact fun hmem ↦ (account_of_allows h₀).apart c hmem
    (mem_gone_of_left h₀ (List.mem_append_right _ List.mem_cons_self))

/-- A member that has left does not enter again. -/
theorem not_entered_of_left (h : Allows (before ++ .left c :: mid ++ .entered c :: after) r) :
    False := by
  obtain ⟨r₀, r₁, h₀, h₁⟩ := exists_allows_of_append h
  have hgone := mem_gone_of_left h₀ (List.mem_append_right _ List.mem_cons_self)
  exact (Option.ite_none_right_eq_some.mp h₁).1.2 ((account_of_allows h₀).seen.2 hgone)

end Room

end Chat

end CppRepo
