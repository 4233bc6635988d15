import Mathlib.Data.Fintype.Card
import Rdfs.ServerLoop

/-!
# A server without a free slot

`rdfs_accept_connection` looks for a slot with status 0 and prints a message if there is none. It
goes on with the index the loop ended at, which is then `MAX_EPOLL_EVENTS` : the event behind the
last one of `g_events` is set and registered.

`ServerImage` is the server together with the memory behind `g_events`. As long as a slot is free
it is the server of the loop (`rdfsAcceptConnection_toServer`). `acceptsInside_iff` says that a
connection is taken into a slot, or refused by a full server, exactly if a slot is free, and that
as many connections as there are free slots stay below `MAX_EPOLL_EVENTS`.
-/

namespace Rdfs

/-- The server, the events that the memory behind `g_events` would be, and what is registered for
the first of them. -/
structure ServerImage extends Server where
  outside : ℕ → RdfsEvent
  stray : ℕ → Option Mask

namespace ServerImage

/-- The index at which the loop of `rdfs_accept_connection` ends. -/
def scan (m : ServerImage) : ℕ :=
  match m.freeSlot with
  | some i => i
  | none => maxEpollEvents

/-- `rdfs_event_set` and `rdfs_event_add` of the event right behind `g_events`, with `accept`
already done. -/
def eventBehind (m : ServerImage) (nfd : ℕ) : ServerImage :=
  { m with
    outside := Function.update m.outside 0
      ⟨nfd, .recvData, .epollin, 1, resetMessage (m.outside 0).message⟩
    stray :=
      if m.os.Pollable nfd ∧ m.os.epoll nfd = none ∧ m.stray nfd = none then
        Function.update m.stray nfd (some .epollin)
      else m.stray }

/-- `rdfs_accept_connection` where `accept` returns `nfd`, or -1 if that is `none`. -/
def rdfsAcceptConnection (m : ServerImage) (nfd : Option ℕ) : ServerImage :=
  match nfd with
  | none => m
  | some nfd =>
    let t : ServerImage := { m with os := m.os.accept nfd }
    match t.freeSlot with
    | some i => { t with toServer := (t.eventSet i nfd .recvData false).eventAdd .epollin i }
    | none => t.eventBehind nfd

/-- Of the server itself a connection changes what it changes in the loop. -/
theorem rdfsAcceptConnection_toServer (m : ServerImage) (nfd : Option ℕ) :
    (m.rdfsAcceptConnection nfd).toServer = m.toServer.acceptConnection nfd := by
  cases nfd with
  | none => rfl
  | some nfd =>
    simp only [rdfsAcceptConnection, Server.acceptConnection]
    cases hslot : Server.freeSlot ⟨m.gEvents, m.os.accept nfd⟩ with
    | none => rfl
    | some i => rfl

/-- The connection is refused : no slot and nothing outside `g_events` has changed, and its
descriptor is not registered. -/
def Refuses (m : ServerImage) (nfd : Option ℕ) : Prop :=
  (m.rdfsAcceptConnection nfd).gEvents = m.gEvents ∧
    (m.rdfsAcceptConnection nfd).outside = m.outside ∧
    ∀ fd ∈ nfd, (m.rdfsAcceptConnection nfd).os.epoll fd = none ∧
      (m.rdfsAcceptConnection nfd).stray fd = none

/-- The index used is one of `g_events`, and a server without a free slot refuses. -/
def AcceptsInside (m : ServerImage) (nfd : Option ℕ) : Prop :=
  (nfd ≠ none → m.scan < maxEpollEvents) ∧
    ((∀ i, (m.gEvents i).status ≠ 0) → m.Refuses nfd)

/-- The indices used for connections that are accepted one after the other. -/
def indices (m : ServerImage) : List ℕ → List ℕ
  | [] => []
  | nfd :: nfds => m.scan :: (m.rdfsAcceptConnection (some nfd)).indices nfds

/-- How many slots are free. -/
def freeSlots (m : ServerImage) : ℕ :=
  (Finset.univ.filter fun i => (m.gEvents i).status = 0).card

theorem freeSlot_eq_none (m : ServerImage) : m.freeSlot = none ↔ ∀ i, (m.gEvents i).status ≠ 0 := by
  simp [Server.freeSlot]

theorem scan_lt_iff (m : ServerImage) :
    m.scan < maxEpollEvents ↔ ∃ i, (m.gEvents i).status = 0 := by
  have hnone := m.freeSlot_eq_none
  unfold scan
  cases hslot : m.freeSlot with
  | none => simpa using hnone.1 hslot
  | some i => simpa using ⟨i, Server.status_of_freeSlot hslot⟩

theorem gEvents_accept {m : ServerImage} {i : Fin maxEpollEvents} (h : m.freeSlot = some i)
    (nfd : ℕ) : ∃ ev : RdfsEvent, ev.status = 1 ∧
      (m.rdfsAcceptConnection (some nfd)).gEvents = Function.update m.gEvents i ev := by
  rw [rdfsAcceptConnection_toServer, Server.acceptConnection_some h]
  obtain ⟨message, hset⟩ := Server.eventAdd_eventSet { m.toServer with os := m.os.accept nfd } i nfd
    .recvData false .epollin
  exact ⟨_, rfl, by rw [hset]⟩

/-- A connection with a free slot takes it. -/
theorem freeSlots_accept {m : ServerImage} (h : m.scan < maxEpollEvents) (nfd : ℕ) :
    (m.rdfsAcceptConnection (some nfd)).freeSlots + 1 = m.freeSlots := by
  obtain ⟨i, hi⟩ : ∃ i, m.freeSlot = some i := by
    refine Option.ne_none_iff_exists'.1 fun hnone => ?_
    simp [scan, hnone] at h
  obtain ⟨ev, hev, hg⟩ := gEvents_accept hi nfd
  have herase : (Finset.univ.filter fun j =>
      ((m.rdfsAcceptConnection (some nfd)).gEvents j).status = 0) =
      (Finset.univ.filter fun j => (m.gEvents j).status = 0).erase i := by
    ext j
    rw [hg]
    by_cases hj : j = i
    · subst hj
      simp [hev]
    · simp [hj]
  rw [freeSlots, herase, Finset.card_erase_add_one, freeSlots]
  simpa using Server.status_of_freeSlot hi

theorem freeSlots_pos_iff (m : ServerImage) : 0 < m.freeSlots ↔ m.scan < maxEpollEvents := by
  rw [scan_lt_iff, freeSlots, Finset.card_pos]
  simp [Finset.Nonempty]

/-- As many connections as there are free slots use indices below `MAX_EPOLL_EVENTS`, and no
more. -/
theorem indices_lt_iff (m : ServerImage) (nfds : List ℕ) :
    (∀ i ∈ m.indices nfds, i < maxEpollEvents) ↔ nfds.length ≤ m.freeSlots := by
  induction nfds generalizing m with
  | nil => simp [indices]
  | cons nfd nfds ih =>
    rw [indices, List.forall_mem_cons, ih, List.length_cons]
    by_cases h : m.scan < maxEpollEvents
    · have := freeSlots_accept h nfd
      omega
    · have hpos := mt m.freeSlots_pos_iff.1 h
      omega

end ServerImage

/-- In every state of the server a connection is taken into a slot of `g_events`, or refused if all
are busy, exactly if `accept` has failed or a slot is free. Connections accepted one after the
other use indices below `MAX_EPOLL_EVENTS` exactly if they are no more than the free slots. -/
theorem acceptsInside_iff (m : ServerImage) :
    (∀ nfd, m.AcceptsInside nfd ↔ nfd = none ∨ ∃ i, (m.gEvents i).status = 0) ∧
      ∀ nfds, (∀ i ∈ m.indices nfds, i < maxEpollEvents) ↔ nfds.length ≤ m.freeSlots := by
  refine ⟨fun nfd => ?_, m.indices_lt_iff⟩
  rw [← m.scan_lt_iff]
  constructor
  · rintro ⟨hlt, -⟩
    by_cases hnfd : nfd = none
    · exact Or.inl hnfd
    · exact Or.inr (hlt hnfd)
  · rintro (rfl | hlt)
    · exact ⟨fun h => absurd rfl h, fun _ => ⟨rfl, rfl, by simp⟩⟩
    · refine ⟨fun _ => hlt, fun hbusy => ?_⟩
      obtain ⟨i, hi⟩ := m.scan_lt_iff.1 hlt
      exact absurd hi (hbusy i)

/-- The server with nine connections, on the descriptors 5 to 13. -/
def nineConnections : ServerImage where
  toServer := (List.range 9).foldl (fun s k => s.acceptConnection (some (5 + k)))
    (.initNetwork (fun fd => fd < 3) 3 4)
  outside _ := ⟨0, .null, .zero, 0, fun _ => 0⟩
  stray _ := none

/-- The tenth connection : the event behind `g_events` is written and registered. -/
theorem tenth_connection_behind : (∀ i, (nineConnections.gEvents i).status ≠ 0) ∧
    ((nineConnections.rdfsAcceptConnection (some 14)).outside 0).fd = 14 ∧
    (nineConnections.rdfsAcceptConnection (some 14)).stray 14 = some .epollin ∧
    ¬nineConnections.Refuses (some 14) ∧ ¬nineConnections.AcceptsInside (some 14) ∧
    ¬∀ i ∈ nineConnections.indices [14], i < maxEpollEvents := by
  have hbusy : ∀ i, (nineConnections.gEvents i).status ≠ 0 := by decide
  have hscan : ¬nineConnections.scan < maxEpollEvents := by
    rw [nineConnections.scan_lt_iff]
    exact fun ⟨i, hi⟩ => hbusy i hi
  have hstray : (nineConnections.rdfsAcceptConnection (some 14)).stray 14 = some .epollin := by
    decide
  refine ⟨hbusy, by decide, hstray, fun h => ?_, fun h => hscan (h.1 (by simp)),
    fun h => hscan (h _ List.mem_cons_self)⟩
  exact absurd (hstray.symm.trans (h.2.2 14 rfl).2) (by simp)

end Rdfs
