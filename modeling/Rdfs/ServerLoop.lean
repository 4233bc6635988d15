import Mathlib.Logic.Function.Basic
import Rdfs.ServerStream
import Rdfs.Trace

/-!
# The event loop of the server

The server in user space keeps one `struct rdfs_event` for each connection, in one of ten slots, the
last of which is the listening socket. Its loop waits for `epoll` and calls the callback of the slot
: `rdfs_accept_connection`, `rdfs_recv_data` or `rdfs_send_data`. The callbacks register the
descriptor of the slot for what they wait for next, and a request that arrives whole is executed in
between, with the descriptors of the whole process.

`ServerOp` is one callback, with what the system calls in it return. `eventsOk_iff` says in which
runs the slots and the registrations agree throughout : those in which no close request names a
socket.
-/

namespace Rdfs

open Function Option

/-! ## Descriptors -/

/-- `MAX_EPOLL_EVENTS`. -/
abbrev maxEpollEvents : ℕ := 10

/-- What a descriptor of the server refers to. A file belongs to the client that had it opened. -/
inductive Resource
  | inherited
  | epoll
  | listening
  | connection (client : ℕ)
  | file (client : ℕ)
deriving DecidableEq, Repr

/-- The `events` of a slot and of a registration. -/
inductive Mask
  | zero
  | epollin
  | epollout
deriving DecidableEq, Repr

/-- The descriptors of the process, what is registered for which slot, the number of connections
accepted so far, and the numbers that `open` has returned so far. -/
structure Os where
  fds : ℕ → Option Resource
  epollFd : ℕ
  epoll : ℕ → Option (Mask × Fin maxEpollEvents)
  clients : ℕ
  opened : List ℕ

namespace Os

/-- The number a new descriptor gets : the lowest one that is not open. -/
def Lowest (os : Os) (fd : ℕ) : Prop :=
  os.fds fd = none ∧ (∀ k < fd, os.fds k ≠ none) ∧ fd < 2 ^ 31

instance (os : Os) (fd : ℕ) : Decidable (os.Lowest fd) :=
  inferInstanceAs (Decidable (_ ∧ _ ∧ _))

/-- A descriptor is opened. -/
def grant (os : Os) (fd : ℕ) (r : Resource) : Os :=
  { os with fds := Function.update os.fds fd (some r) }

/-- `accept` that returns `fd`. -/
def accept (os : Os) (fd : ℕ) : Os :=
  { os.grant fd (.connection os.clients) with clients := os.clients + 1 }

/-- `close`. What is registered for the descriptor is gone, and everything if it is that of
`epoll`. -/
def close (os : Os) (fd : ℕ) : Os :=
  if os.fds fd = none then os
  else { os with
    fds := Function.update os.fds fd none
    epoll := if os.fds fd = some .epoll then fun _ => none else Function.update os.epoll fd none }

/-- Sockets can be registered, files cannot. -/
def Pollable (os : Os) (fd : ℕ) : Prop :=
  os.fds os.epollFd = some .epoll ∧
    match os.fds fd with
    | some (.connection _) | some .listening => True
    | _ => False

instance (os : Os) (fd : ℕ) : Decidable (os.Pollable fd) := by
  unfold Pollable
  split <;> infer_instance

/-- `epoll_ctl` with `EPOLL_CTL_ADD`. -/
def epollAdd (os : Os) (fd : ℕ) (mask : Mask) (i : Fin maxEpollEvents) : Os :=
  if os.Pollable fd ∧ os.epoll fd = none then
    { os with epoll := Function.update os.epoll fd (some (mask, i)) }
  else os

/-- `epoll_ctl` with `EPOLL_CTL_MOD`. -/
def epollMod (os : Os) (fd : ℕ) (mask : Mask) (i : Fin maxEpollEvents) : Os :=
  if os.epoll fd = none then os
  else { os with epoll := Function.update os.epoll fd (some (mask, i)) }

/-- `epoll_ctl` with `EPOLL_CTL_DEL`. -/
def epollDel (os : Os) (fd : ℕ) : Os :=
  { os with epoll := Function.update os.epoll fd none }

end Os

/-! ## Requests -/

/-- The number that a close request names; it is 0 if there is none in the message. -/
def openFd (m : Mem) : ℕ :=
  match sscanf .user [.num .d] (m.cString networkBuffLength 4) with
  | .word n :: _ => n
  | _ => 0

namespace Os

/-- `rdfs_client_open` where `open` returns `opened`, or -1 if that is `none`. -/
def clientOpen (os : Os) (client : ℕ) (m : Mem) (opened : Option ℕ) : Mem × Os :=
  match opened with
  | some fd => (printData m (sprintf [.num .d] [.word fd]),
      { os.grant fd (.file client) with opened := fd :: os.opened })
  | none => (printData m (sprintf [.num .d] [.word 0xffffffff]), os)

/-- `rdfs_client_close`. -/
def clientClose (os : Os) (m : Mem) : Mem × Os :=
  let ret := if os.fds (openFd m) = none then 0xffffffff else 0
  (printData m (sprintf [.num .d] [.word ret]), os.close (openFd m))

/-- `rdfs_process_request`. -/
def processRequest (os : Os) (client : ℕ) (m : Mem) (opened : Option ℕ) : Mem × Os :=
  if mType m = rdfsClientOpen then os.clientOpen client m opened
  else if mType m = rdfsClientClose then os.clientClose m
  else (m, os)

end Os

/-! ## Slots -/

/-- `call_back`. -/
inductive CallBack
  | null
  | acceptConnection
  | recvData
  | sendData
deriving DecidableEq, Repr

/-- `struct rdfs_event`. Its `arg` is always the event itself. -/
structure RdfsEvent where
  fd : ℕ
  callBack : CallBack
  events : Mask
  status : ℕ
  message : Mem

/-- `g_events` and the descriptors. -/
structure Server where
  gEvents : Fin maxEpollEvents → RdfsEvent
  os : Os

/-- The numerals of slots. -/
instance neZero_maxEpollEvents : NeZero maxEpollEvents := ⟨Nat.succ_ne_zero 9⟩

/-- The slot of the listening socket. -/
def listeningSlot : Fin maxEpollEvents := 9

namespace Server

/-- A slot is written. -/
def put (s : Server) (i : Fin maxEpollEvents) (ev : RdfsEvent) : Server :=
  { s with gEvents := Function.update s.gEvents i ev }

/-- The message of a slot is written. -/
def putMessage (s : Server) (i : Fin maxEpollEvents) (m : Mem) : Server :=
  s.put i { s.gEvents i with message := m }

/-- `rdfs_event_set`; the message is kept if `arg` is not `NULL`. -/
def eventSet (s : Server) (i : Fin maxEpollEvents) (fd : ℕ) (callBack : CallBack) (arg : Bool) :
    Server :=
  s.put i
    { fd := fd
      callBack := callBack
      events := .zero
      status := 0
      message := if arg then (s.gEvents i).message else resetMessage (s.gEvents i).message }

/-- `rdfs_event_add`. -/
def eventAdd (s : Server) (mask : Mask) (i : Fin maxEpollEvents) : Server :=
  let ev := s.gEvents i
  let t := s.put i { ev with events := mask, status := 1 }
  if ev.status = 1 then { t with os := s.os.epollMod ev.fd mask i }
  else { t with os := s.os.epollAdd ev.fd mask i }

/-- `rdfs_event_del`. -/
def eventDel (s : Server) (i : Fin maxEpollEvents) : Server :=
  let ev := s.gEvents i
  if ev.status ≠ 1 then s
  else { s.put i { ev with status := 0 } with os := s.os.epollDel ev.fd }

/-- `close`. -/
def close (s : Server) (fd : ℕ) : Server := { s with os := s.os.close fd }

/-- The client whose connection is in a slot. -/
def client (s : Server) (i : Fin maxEpollEvents) : ℕ :=
  match s.os.fds (s.gEvents i).fd with
  | some (.connection c) => c
  | _ => 0

/-- The first slot with status 0. -/
def freeSlot (s : Server) : Option (Fin maxEpollEvents) :=
  (List.finRange maxEpollEvents).find? fun i => (s.gEvents i).status = 0

/-! ## Callbacks -/

/-- `rdfs_accept_connection` where `accept` returns `nfd`, or -1 if that is `none`. If no slot is
free, the source writes behind `g_events`. -/
def acceptConnection (s : Server) (nfd : Option ℕ) : Server :=
  match nfd with
  | none => s
  | some nfd =>
    let t : Server := { s with os := s.os.accept nfd }
    match t.freeSlot with
    | none => t
    | some i => (t.eventSet i nfd .recvData false).eventAdd .epollin i

/-- `rdfs_process_request` of the message in a slot. -/
def processRequest (s : Server) (i : Fin maxEpollEvents) (client : ℕ) (opened : Option ℕ) :
    Server :=
  let r := s.os.processRequest client (s.gEvents i).message opened
  { s.putMessage i r.1 with os := r.2 }

end Server

/-- What `recv` returns. If the bytes are a request to open a file, `opened` is what `open`
returns. -/
inductive Received
  | bytes (bs : List UInt8) (opened : Option ℕ)
  | closed
  | failed
deriving DecidableEq, Repr

namespace Server

/-- `rdfs_recv_data`. -/
def recvData (s : Server) (i : Fin maxEpollEvents) : Received → Server
  | .bytes bs opened =>
    let fd := (s.gEvents i).fd
    let t := (s.putMessage i (recvInto (s.gEvents i).message bs)).eventDel i
    if bs.length = serverMessageSize then
      ((t.processRequest i (s.client i) opened).eventSet i fd .sendData true).eventAdd .epollout i
    else (t.eventSet i fd .recvData false).eventAdd .epollin i
  | .closed | .failed => (s.eventDel i).close (s.gEvents i).fd

/-- `rdfs_send_data`, which succeeds if `ok`. -/
def sendData (s : Server) (i : Fin maxEpollEvents) (ok : Bool) : Server :=
  let fd := (s.gEvents i).fd
  let t := s.putMessage i (resetMessage (setType (s.gEvents i).message 0))
  if ok then ((t.eventDel i).eventSet i fd .recvData false).eventAdd .epollin i
  else (t.close fd).eventDel i

end Server

/-- One callback of the loop. -/
inductive ServerOp
  | accept (nfd : Option ℕ)
  | recv (i : Fin maxEpollEvents) (r : Received)
  | send (i : Fin maxEpollEvents) (ok : Bool)
deriving DecidableEq, Repr

namespace Server

/-- One pass of the loop. -/
def step (s : Server) : ServerOp → Server
  | .accept nfd => s.acceptConnection nfd
  | .recv i r => s.recvData i r
  | .send i ok => s.sendData i ok

/-- `epoll_wait` returns a slot that has this callback, for the mask it is registered for. -/
def Ready (s : Server) (i : Fin maxEpollEvents) (callBack : CallBack) (mask : Mask) : Prop :=
  s.os.epoll (s.gEvents i).fd = some (mask, i) ∧ (s.gEvents i).events = mask ∧
    (s.gEvents i).callBack = callBack

instance (s : Server) (i : Fin maxEpollEvents) (callBack : CallBack) (mask : Mask) :
    Decidable (s.Ready i callBack mask) :=
  inferInstanceAs (Decidable (_ ∧ _ ∧ _))

/-- The system calls of a callback return what they may. -/
def Returns (s : Server) : ServerOp → Prop
  | .accept nfd => s.Ready listeningSlot .acceptConnection .epollin ∧ ∀ fd ∈ nfd, s.os.Lowest fd
  | .recv i (.bytes bs opened) => s.Ready i .recvData .epollin ∧ 0 < bs.length ∧
      bs.length ≤ serverMessageSize ∧ ∀ fd ∈ opened, s.os.Lowest fd
  | .recv i _ => s.Ready i .recvData .epollin
  | .send i _ => s.Ready i .sendData .epollout

instance (s : Server) : ∀ op, Decidable (s.Returns op)
  | .accept _ => inferInstanceAs (Decidable (_ ∧ _))
  | .recv _ (.bytes _ _) => inferInstanceAs (Decidable (_ ∧ _ ∧ _ ∧ _))
  | .recv i .closed => inferInstanceAs (Decidable (s.Ready i _ _))
  | .recv i .failed => inferInstanceAs (Decidable (s.Ready i _ _))
  | .send i _ => inferInstanceAs (Decidable (s.Ready i _ _))

/-- A new connection finds a slot with status 0. The source goes on without one. -/
def FindsSlot (s : Server) : ServerOp → Prop
  | .accept nfd => ∀ _fd ∈ nfd, s.freeSlot ≠ none
  | _ => True

instance (s : Server) : ∀ op, Decidable (s.FindsSlot op)
  | .accept nfd => inferInstanceAs (Decidable (∀ _fd ∈ nfd, s.freeSlot ≠ none))
  | .recv _ _ | .send _ _ => .isTrue trivial

/-- A callback in the memory of `g_events`. -/
def Valid (s : Server) (op : ServerOp) : Prop := s.Returns op ∧ s.FindsSlot op

instance (s : Server) (op : ServerOp) : Decidable (s.Valid op) :=
  inferInstanceAs (Decidable (_ ∧ _))

/-- The descriptor that is closed by the request a callback executes. -/
def closes (s : Server) : ServerOp → Option ℕ
  | .recv i (.bytes bs _) =>
    let m := recvInto (s.gEvents i).message bs
    if bs.length = serverMessageSize ∧ mType m = rdfsClientClose then some (openFd m) else none
  | _ => none

/-- The state in which `rdfs_init_network` starts its loop : `epoll_create` has returned `efd` and
`socket` has returned `lfd`. -/
def initNetwork (inherited : ℕ → Bool) (efd lfd : ℕ) : Server :=
  let os : Os :=
    { fds := fun fd => if inherited fd then some .inherited else none
      epollFd := efd
      epoll := fun _ => none
      clients := 0
      opened := [] }
  let s : Server :=
    { gEvents := fun _ => ⟨0, .null, .zero, 0, fun _ => 0⟩
      os := (os.grant efd .epoll).grant lfd .listening }
  (s.eventSet listeningSlot lfd .acceptConnection false).eventAdd .epollin listeningSlot

end Server

/-! ## What closing and requests change -/

namespace Os

variable (os : Os)

theorem close_fds (fd : ℕ) : (os.close fd).fds = Function.update os.fds fd none := by
  by_cases h : os.fds fd = none
  · rw [close, if_pos h, ← h, update_eq_self]
  · rw [close, if_neg h]

theorem close_epollFd (fd : ℕ) : (os.close fd).epollFd = os.epollFd := by
  rw [close]
  split_ifs <;> rfl

theorem close_epoll {os : Os} {fd : ℕ} (h : os.fds fd ≠ some .epoll)
    (hnone : os.fds fd = none → os.epoll fd = none) :
    (os.close fd).epoll = Function.update os.epoll fd none := by
  by_cases hfd : os.fds fd = none
  · rw [close, if_pos hfd, ← hnone hfd, update_eq_self]
  · rw [close, if_neg hfd]
    exact if_neg h

theorem processRequest_close {m : Mem} (h : mType m = rdfsClientClose) (client : ℕ)
    (opened : Option ℕ) : (os.processRequest client m opened).2 = os.close (openFd m) := by
  rw [processRequest, if_neg (by rw [h]; decide), if_pos h]
  rfl

/-- A request closes the descriptor it names, or opens a file, or changes no descriptor. -/
theorem processRequest_cases (client : ℕ) (m : Mem) (opened : Option ℕ) :
    mType m = rdfsClientClose ∧
      (os.processRequest client m opened).2 = os.close (openFd m) ∨
    mType m ≠ rdfsClientClose ∧
      ((os.processRequest client m opened).2 = os ∨
        ∃ fd ∈ opened, (os.processRequest client m opened).2 =
          { os.grant fd (.file client) with opened := fd :: os.opened }) := by
  by_cases h : mType m = rdfsClientClose
  · exact .inl ⟨h, os.processRequest_close h client opened⟩
  · refine .inr ⟨h, ?_⟩
    rw [processRequest, if_neg h]
    split_ifs
    · cases opened with
      | none => exact .inl rfl
      | some fd => exact .inr ⟨fd, rfl, rfl⟩
    · exact .inl rfl

end Os

namespace Server

variable (s : Server)

@[simp] theorem putMessage_self (i : Fin maxEpollEvents) (m : Mem) :
    (s.putMessage i m).gEvents i = { s.gEvents i with message := m } :=
  update_self ..

@[simp] theorem putMessage_os (i : Fin maxEpollEvents) (m : Mem) : (s.putMessage i m).os = s.os :=
  rfl

section

variable {s : Server} {i : Fin maxEpollEvents} (hi : (s.gEvents i).status = 1)
include hi

theorem eventDel_of_one :
    s.eventDel i = { s.put i { s.gEvents i with status := 0 } with
      os := s.os.epollDel (s.gEvents i).fd } :=
  if_neg (not_not.2 hi)

theorem eventDel_self : (s.eventDel i).gEvents i = { s.gEvents i with status := 0 } := by
  rw [eventDel_of_one hi]
  exact update_self ..

end

theorem eventDel_message (i : Fin maxEpollEvents) :
    ((s.eventDel i).gEvents i).message = (s.gEvents i).message := by
  by_cases hi : (s.gEvents i).status = 1
  · rw [eventDel_self hi]
  · rw [eventDel, if_pos hi]

@[simp] theorem eventDel_fds (i : Fin maxEpollEvents) : (s.eventDel i).os.fds = s.os.fds := by
  rw [eventDel]
  split_ifs <;> rfl

theorem processRequest_self (i : Fin maxEpollEvents) (client : ℕ) (opened : Option ℕ) :
    ∃ m, (s.processRequest i client opened).gEvents i = { s.gEvents i with message := m } :=
  ⟨_, update_self ..⟩

/-- It does not matter whether a connection is closed before or after it is taken out of its
slot. -/
theorem eventDel_close {s : Server} {i : Fin maxEpollEvents} (hi : (s.gEvents i).status = 1)
    {c : ℕ} (hc : s.os.fds (s.gEvents i).fd = some (.connection c)) :
    (s.close (s.gEvents i).fd).eventDel i = (s.eventDel i).close (s.gEvents i).fd := by
  rw [eventDel_of_one hi, eventDel_of_one (show ((s.close _).gEvents i).status = 1 from hi)]
  simp only [close, put, Os.epollDel, Os.close, hc, reduceCtorEq, if_false, some.injEq]

theorem eventAdd_eventSet (i : Fin maxEpollEvents) (fd : ℕ) (callBack : CallBack) (arg : Bool)
    (mask : Mask) : ∃ m, (s.eventSet i fd callBack arg).eventAdd mask i =
      ⟨Function.update s.gEvents i ⟨fd, callBack, mask, 1, m⟩, s.os.epollAdd fd mask i⟩ := by
  refine ⟨if arg then (s.gEvents i).message else resetMessage (s.gEvents i).message, ?_⟩
  simp only [eventAdd, eventSet, put, update_self, update_idem,
    if_neg (by decide : (0 : ℕ) ≠ 1)]

end Server

/-! ## The invariant of the loop -/

/-- The resources that are not files. -/
def Resource.Socket : Resource → Prop
  | .epoll | .listening | .connection _ => True
  | .inherited | .file _ => False

instance : DecidablePred Resource.Socket
  | .epoll | .listening | .connection _ => .isTrue trivial
  | .inherited | .file _ => .isFalse id

/-- What a slot waits for goes with its callback. -/
def RdfsEvent.Waits (ev : RdfsEvent) : Prop :=
  ev.events = .epollin ∧ (ev.callBack = .acceptConnection ∨ ev.callBack = .recvData) ∨
    ev.events = .epollout ∧ ev.callBack = .sendData

/-- What holds between two callbacks, and within one : the connection `missing` is then without a
slot and not registered. -/
structure LoopInv (lfd : ℕ) (missing : Option ℕ) (s : Server) : Prop where
  epoll_open : s.os.fds s.os.epollFd = some .epoll
  listening_open : s.os.fds lfd = some .listening
  epoll_only : ∀ fd, s.os.fds fd = some .epoll → fd = s.os.epollFd
  listening_only : ∀ fd, s.os.fds fd = some .listening → fd = lfd
  listens : (s.gEvents listeningSlot).status = 1 ∧ (s.gEvents listeningSlot).fd = lfd ∧
    (s.gEvents listeningSlot).callBack = .acceptConnection
  status : ∀ i, (s.gEvents i).status = 0 ∨ (s.gEvents i).status = 1
  registered : ∀ i, (s.gEvents i).status = 1 →
    s.os.epoll (s.gEvents i).fd = some ((s.gEvents i).events, i)
  entries : ∀ fd mask i, s.os.epoll fd = some (mask, i) →
    (s.gEvents i).status = 1 ∧ (s.gEvents i).fd = fd
  waits : ∀ i, (s.gEvents i).status = 1 → (s.gEvents i).Waits
  held : ∀ i, (s.gEvents i).status = 1 → i ≠ listeningSlot →
    ∃ c, s.os.fds (s.gEvents i).fd = some (.connection c)
  owned : ∀ fd c, s.os.fds fd = some (.connection c) → missing ≠ some fd →
    ∃ i, (s.gEvents i).status = 1 ∧ (s.gEvents i).fd = fd
  missing_open : ∀ fd, missing = some fd →
    (∃ c, s.os.fds fd = some (.connection c)) ∧ s.os.epoll fd = none

namespace LoopInv

variable {lfd : ℕ} {missing : Option ℕ} {s t : Server}

section

variable (h : LoopInv lfd missing s)
include h

theorem ne_listening {i : Fin maxEpollEvents} (hi : (s.gEvents i).status ≠ 1) :
    i ≠ listeningSlot := by
  rintro rfl
  exact hi h.listens.1

/-- Two slots with status 1 have different descriptors. -/
theorem slot_unique {i j : Fin maxEpollEvents} (hi : (s.gEvents i).status = 1)
    (hj : (s.gEvents j).status = 1) (hfd : (s.gEvents i).fd = (s.gEvents j).fd) : i = j := by
  have he := h.registered i hi
  rw [hfd, h.registered j hj] at he
  exact (Prod.ext_iff.1 (some.inj he)).2.symm

/-- What is registered is a socket. -/
theorem epoll_of_not_socket {fd : ℕ} (hfd : ∀ r, s.os.fds fd = some r → ¬ r.Socket) :
    s.os.epoll fd = none := by
  by_contra hne
  obtain ⟨⟨mask, i⟩, he⟩ := ne_none_iff_exists'.1 hne
  obtain ⟨hstatus, rfl⟩ := h.entries fd mask i he
  by_cases hi : i = listeningSlot
  · subst hi
    exact hfd .listening (h.listens.2.1 ▸ h.listening_open) trivial
  · obtain ⟨c, hc⟩ := h.held i hstatus hi
    exact hfd _ hc trivial

/-- The invariant depends on the sockets, and not on the files and messages. -/
theorem congr (hev : ∀ j, ∃ m, t.gEvents j = { s.gEvents j with message := m })
    (hefd : t.os.epollFd = s.os.epollFd) (hepoll : t.os.epoll = s.os.epoll)
    (hfds : ∀ fd (r : Resource), r.Socket → (t.os.fds fd = some r ↔ s.os.fds fd = some r)) :
    LoopInv lfd missing t := by
  choose m hm using hev
  have hconn : ∀ fd c, t.os.fds fd = some (.connection c) ↔ s.os.fds fd = some (.connection c) :=
    fun fd c => hfds fd _ trivial
  have hlisten : ∀ fd, t.os.fds fd = some .listening ↔ s.os.fds fd = some .listening :=
    fun fd => hfds fd _ trivial
  have hep : ∀ fd, t.os.fds fd = some .epoll ↔ s.os.fds fd = some .epoll :=
    fun fd => hfds fd _ trivial
  constructor <;> simp only [hm, hefd, hepoll, hconn, hlisten, hep]
  · exact h.epoll_open
  · exact h.listening_open
  · exact h.epoll_only
  · exact h.listening_only
  · exact h.listens
  · exact h.status
  · exact h.registered
  · exact h.entries
  · exact h.waits
  · exact h.held
  · exact h.owned
  · exact h.missing_open

theorem putMessage (i : Fin maxEpollEvents) (m : Mem) : LoopInv lfd missing (s.putMessage i m) := by
  refine h.congr (fun j => ?_) rfl rfl fun _ _ _ => Iff.rfl
  by_cases hj : j = i
  · subst hj
    exact ⟨m, update_self ..⟩
  · exact ⟨_, update_of_ne hj _ _⟩

end

/-- A connection is accepted; it has no slot yet. -/
theorem accept (h : LoopInv lfd none s) {nfd : ℕ} (hnfd : s.os.fds nfd = none) :
    LoopInv lfd (some nfd) { s with os := s.os.accept nfd } := by
  have hepoll : s.os.epoll nfd = none := h.epoll_of_not_socket fun r hr => by simp [hnfd] at hr
  have hne : ∀ fd r, s.os.fds fd = some r → fd ≠ nfd := by
    rintro fd r hr rfl
    simp [hnfd] at hr
  have hfds : ∀ fd, fd ≠ nfd → (s.os.accept nfd).fds fd = s.os.fds fd :=
    fun fd hfd => update_of_ne hfd _ _
  have hself : (s.os.accept nfd).fds nfd = some (.connection s.os.clients) :=
    update_self ..
  have hback : ∀ fd r, r ≠ .connection s.os.clients → (s.os.accept nfd).fds fd = some r →
      s.os.fds fd = some r := by
    intro fd r hr hfd
    by_cases hfn : fd = nfd
    · subst hfn
      exact absurd (some.inj (hfd.symm.trans hself)) hr
    · rwa [hfds fd hfn] at hfd
  exact
    { epoll_open := (hfds _ (hne _ _ h.epoll_open)).trans h.epoll_open
      listening_open := (hfds _ (hne _ _ h.listening_open)).trans h.listening_open
      epoll_only := fun fd hfd => h.epoll_only fd (hback fd _ nofun hfd)
      listening_only := fun fd hfd => h.listening_only fd (hback fd _ nofun hfd)
      listens := h.listens
      status := h.status
      registered := h.registered
      entries := h.entries
      waits := h.waits
      held := fun i hi hl => by
        obtain ⟨c, hc⟩ := h.held i hi hl
        exact ⟨c, (hfds _ (hne _ _ hc)).trans hc⟩
      owned := fun fd c hfd hm => by
        have hfn : fd ≠ nfd := fun h => hm (h ▸ rfl)
        exact h.owned fd c ((hfds fd hfn).symm.trans hfd) nofun
      missing_open := fun fd hfd => by
        obtain rfl := some.inj hfd
        exact ⟨⟨_, hself⟩, hepoll⟩ }

/-- `rdfs_event_del` of a connection, which is then without a slot. -/
theorem eventDel (h : LoopInv lfd none s) {i : Fin maxEpollEvents}
    (hi : (s.gEvents i).status = 1) (hl : i ≠ listeningSlot) :
    LoopInv lfd (some (s.gEvents i).fd) (s.eventDel i) := by
  have hdel := Server.eventDel_of_one hi
  have hself := Server.eventDel_self hi
  have hother : ∀ j, j ≠ i → (s.eventDel i).gEvents j = s.gEvents j := by
    intro j hj
    rw [hdel]
    exact update_of_ne hj _ _
  have hone : ∀ j, ((s.eventDel i).gEvents j).status = 1 →
      j ≠ i ∧ (s.eventDel i).gEvents j = s.gEvents j := by
    intro j hj
    have hji : j ≠ i := by
      rintro rfl
      rw [hself] at hj
      exact absurd hj (by decide : (0 : ℕ) ≠ 1)
    exact ⟨hji, hother j hji⟩
  have hfds := s.eventDel_fds i
  have hefd : (s.eventDel i).os.epollFd = s.os.epollFd := by rw [hdel]; rfl
  have hepoll : (s.eventDel i).os.epoll = Function.update s.os.epoll (s.gEvents i).fd none := by
    rw [hdel]; rfl
  exact
    { epoll_open := by rw [hfds, hefd]; exact h.epoll_open
      listening_open := by rw [hfds]; exact h.listening_open
      epoll_only := by rw [hfds, hefd]; exact h.epoll_only
      listening_only := by rw [hfds]; exact h.listening_only
      listens := by rw [hother _ hl.symm]; exact h.listens
      status := fun j => by
        by_cases hji : j = i
        · subst hji
          exact .inl (by rw [hself])
        · rw [hother j hji]
          exact h.status j
      registered := fun j hj => by
        obtain ⟨hji, hev⟩ := hone j hj
        rw [hev] at hj ⊢
        rw [hepoll, update_of_ne fun hfd => hji (h.slot_unique hj hi hfd)]
        exact h.registered j hj
      entries := fun fd mask j he => by
        rw [hepoll] at he
        by_cases hfd : fd = (s.gEvents i).fd
        · subst hfd
          simp at he
        · rw [update_of_ne hfd] at he
          have hent := h.entries fd mask j he
          have hji : j ≠ i := fun h => hfd (h ▸ hent.2.symm)
          rwa [hother j hji]
      waits := fun j hj => by
        obtain ⟨hji, hev⟩ := hone j hj
        rw [hev] at hj ⊢
        exact h.waits j hj
      held := fun j hj hjl => by
        obtain ⟨hji, hev⟩ := hone j hj
        rw [hev] at hj ⊢
        rw [hfds]
        exact h.held j hj hjl
      owned := fun fd c hfd hm => by
        rw [hfds] at hfd
        obtain ⟨j, hj, rfl⟩ := h.owned fd c hfd nofun
        have hji : j ≠ i := fun h => hm (h ▸ rfl)
        exact ⟨j, by rw [hother j hji]; exact ⟨hj, rfl⟩⟩
      missing_open := fun fd hfd => by
        obtain rfl := some.inj hfd
        rw [hfds, hepoll]
        exact ⟨h.held i hi hl, update_self ..⟩ }

theorem epollAdd_eq (h : LoopInv lfd missing s) {fd : ℕ} (hfd : missing = some fd) (mask : Mask)
    (i : Fin maxEpollEvents) : s.os.epollAdd fd mask i =
      { s.os with epoll := Function.update s.os.epoll fd (some (mask, i)) } := by
  obtain ⟨⟨c, hc⟩, he⟩ := h.missing_open fd hfd
  have hpoll : s.os.Pollable fd := ⟨h.epoll_open, by rw [hc]; trivial⟩
  exact if_pos ⟨hpoll, he⟩

/-- The connection without a slot gets one that is free, and is registered. -/
theorem attach {fd : ℕ} (h : LoopInv lfd (some fd) s) {i : Fin maxEpollEvents}
    (hi : (s.gEvents i).status = 0) {callBack : CallBack} {mask : Mask} (arg : Bool)
    (hw : ∀ m, RdfsEvent.Waits ⟨fd, callBack, mask, 1, m⟩) :
    LoopInv lfd none ((s.eventSet i fd callBack arg).eventAdd mask i) := by
  obtain ⟨m, heq⟩ := s.eventAdd_eventSet i fd callBack arg mask
  rw [heq, h.epollAdd_eq rfl]
  obtain ⟨hopen, hepoll⟩ := h.missing_open fd rfl
  have hl : i ≠ listeningSlot := h.ne_listening (by omega)
  have hne : ∀ j, (s.gEvents j).status = 1 → j ≠ i := by
    rintro j hj rfl
    omega
  have hfd : ∀ j, (s.gEvents j).status = 1 → (s.gEvents j).fd ≠ fd := by
    rintro j hj rfl
    simp [h.registered j hj] at hepoll
  exact
    { epoll_open := h.epoll_open
      listening_open := h.listening_open
      epoll_only := h.epoll_only
      listening_only := h.listening_only
      listens := by
        simp only [update_of_ne hl.symm]
        exact h.listens
      status := fun j => by
        by_cases hji : j = i
        · subst hji
          exact .inr (by simp)
        · simp only [update_of_ne hji]
          exact h.status j
      registered := fun j hj => by
        by_cases hji : j = i
        · subst hji
          simp
        · simp only [update_of_ne hji] at hj ⊢
          rw [update_of_ne (hfd j hj)]
          exact h.registered j hj
      entries := fun g mask' j he => by
        by_cases hg : g = fd
        · subst hg
          simp only [update_self] at he
          obtain ⟨-, rfl⟩ := he
          simp
        · simp only [update_of_ne hg] at he
          have hent := h.entries g mask' j he
          simp only [update_of_ne (hne j hent.1)]
          exact hent
      waits := fun j hj => by
        by_cases hji : j = i
        · subst hji
          simpa using hw m
        · simp only [update_of_ne hji] at hj ⊢
          exact h.waits j hj
      held := fun j hj hjl => by
        by_cases hji : j = i
        · subst hji
          simpa using hopen
        · simp only [update_of_ne hji] at hj ⊢
          exact h.held j hj hjl
      owned := fun g c hg _ => by
        by_cases hgf : g = fd
        · exact ⟨i, by simp [hgf]⟩
        · obtain ⟨j, hj, hjg⟩ := h.owned g c hg (fun h => hgf (some.inj h).symm)
          refine ⟨j, ?_⟩
          simp only [update_of_ne (hne j hj)]
          exact ⟨hj, hjg⟩
      missing_open := nofun }

/-- The connection without a slot is closed. -/
theorem close {fd : ℕ} (h : LoopInv lfd (some fd) s) : LoopInv lfd none (s.close fd) := by
  obtain ⟨⟨c, hc⟩, hepoll⟩ := h.missing_open fd rfl
  have hfds : ∀ g, g ≠ fd → (s.close fd).os.fds g = s.os.fds g := fun g hg =>
    (congrFun (s.os.close_fds fd) g).trans (update_of_ne hg _ _)
  have hself : (s.close fd).os.fds fd = none :=
    (congrFun (s.os.close_fds fd) fd).trans (update_self ..)
  have hback : ∀ g r, (s.close fd).os.fds g = some r → g ≠ fd ∧ s.os.fds g = some r := by
    intro g r hg
    have hgf : g ≠ fd := by
      rintro rfl
      simp [hself] at hg
    exact ⟨hgf, (hfds g hgf).symm.trans hg⟩
  have hepollEq : (s.close fd).os.epoll = s.os.epoll := by
    refine (Os.close_epoll (by simp [hc]) fun _ => hepoll).trans ?_
    rw [← hepoll, update_eq_self]
  have hefd : (s.close fd).os.epollFd = s.os.epollFd := s.os.close_epollFd fd
  have hkeep : ∀ g r, s.os.fds g = some r → r ≠ .connection c →
      (s.close fd).os.fds g = some r := by
    rintro g r hg hr
    have hgf : g ≠ fd := by
      rintro rfl
      exact hr (some.inj (hg.symm.trans hc))
    exact (hfds g hgf).trans hg
  exact
    { epoll_open := hefd ▸ hkeep _ _ h.epoll_open nofun
      listening_open := hkeep _ _ h.listening_open nofun
      epoll_only := fun g hg => hefd ▸ h.epoll_only g (hback g _ hg).2
      listening_only := fun g hg => h.listening_only g (hback g _ hg).2
      listens := h.listens
      status := h.status
      registered := hepollEq ▸ h.registered
      entries := hepollEq ▸ h.entries
      waits := h.waits
      held := fun i hi hl => by
        obtain ⟨d, hd⟩ := h.held i hi hl
        refine ⟨d, (hfds _ fun hfd => ?_).trans hd⟩
        have he := h.registered i hi
        rw [show (s.gEvents i).fd = fd from hfd, hepoll] at he
        exact nomatch he
      owned := fun g d hg _ => by
        obtain ⟨hgf, hg⟩ := hback g _ hg
        exact h.owned g d hg fun h => hgf (some.inj h).symm
      missing_open := nofun }

/-- A request keeps the invariant if it does not close a socket. -/
theorem processRequest (h : LoopInv lfd missing s) (i : Fin maxEpollEvents) (client : ℕ)
    {opened : Option ℕ} (hopened : ∀ fd ∈ opened, s.os.fds fd = none)
    (hclose : mType (s.gEvents i).message = rdfsClientClose →
      ∀ r, s.os.fds (openFd (s.gEvents i).message) = some r → ¬ r.Socket) :
    LoopInv lfd missing (s.processRequest i client opened) := by
  have hmsg := h.putMessage i (s.os.processRequest client (s.gEvents i).message opened).1
  rcases s.os.processRequest_cases client (s.gEvents i).message opened with
    ⟨htype, hos⟩ | ⟨-, hos | ⟨nfd, hnfd, hos⟩⟩
  · have hnot := hclose htype
    refine hmsg.congr (fun j => ⟨_, rfl⟩) ?_ ?_ fun fd r hr => ?_
    · exact (congrArg Os.epollFd hos).trans (s.os.close_epollFd _)
    · refine (congrArg Os.epoll hos).trans ?_
      rw [Os.close_epoll (fun he => hnot _ he trivial) fun _ => h.epoll_of_not_socket hnot,
        ← h.epoll_of_not_socket hnot, update_eq_self]
      rfl
    · have hfds : (s.processRequest i client opened).os.fds = _ :=
        (congrArg Os.fds hos).trans (s.os.close_fds _)
      rw [hfds]
      by_cases hfd : fd = openFd (s.gEvents i).message
      · rw [hfd, update_self]
        exact iff_of_false nofun fun hf => hnot r hf hr
      · rw [update_of_ne hfd]
        rfl
  · refine hmsg.congr (fun j => ⟨_, rfl⟩) (congrArg Os.epollFd hos) (congrArg Os.epoll hos)
      fun fd r _ => ?_
    exact Eq.to_iff (congrArg (· = some r) (congrFun (congrArg Os.fds hos) fd))
  · have hepollFd : (s.processRequest i client opened).os.epollFd = s.os.epollFd :=
      (congrArg Os.epollFd hos).trans rfl
    have hepoll : (s.processRequest i client opened).os.epoll = s.os.epoll :=
      (congrArg Os.epoll hos).trans rfl
    refine hmsg.congr (fun j => ⟨_, rfl⟩) hepollFd hepoll fun fd r hr => ?_
    have hfds : (s.processRequest i client opened).os.fds =
        Function.update s.os.fds nfd (some (.file client)) := congrArg Os.fds hos
    rw [hfds]
    by_cases hfd : fd = nfd
    · subst hfd
      rw [update_self]
      refine iff_of_false (fun hf => ?_) fun hf => ?_
      · obtain rfl := some.inj hf
        exact hr
      · exact absurd ((hopened fd hnfd).symm.trans hf) nofun
    · rw [update_of_ne hfd]
      rfl

end LoopInv

/-! ## Runs of the loop -/

/-- No request closes a socket or the descriptor of `epoll`. -/
def Server.KeepsSockets (s : Server) (op : ServerOp) : Prop :=
  ∀ fd ∈ s.closes op, ∀ r ∈ s.os.fds fd, ¬ r.Socket

instance (s : Server) (op : ServerOp) : Decidable (s.KeepsSockets op) := by
  unfold Server.KeepsSockets
  infer_instance

/-- Only a request that arrives whole closes what it names. -/
theorem Server.of_mem_closes {s : Server} {op : ServerOp} {fd : ℕ} (h : fd ∈ s.closes op) :
    ∃ i bs opened, op = .recv i (.bytes bs opened) ∧ bs.length = serverMessageSize ∧
      mType (recvInto (s.gEvents i).message bs) = rdfsClientClose ∧
      openFd (recvInto (s.gEvents i).message bs) = fd := by
  rcases op with _ | ⟨i, ⟨bs, opened⟩ | _ | _⟩ | _
  · exact nomatch h
  · obtain ⟨⟨hlen, htype⟩, hfd⟩ := ite_none_right_eq_some.1 h
    exact ⟨i, bs, opened, rfl, hlen, htype, some.inj hfd⟩
  all_goals exact nomatch h

section

variable {s : Server} {i : Fin maxEpollEvents} (h : s.freeSlot = some i)
include h

theorem Server.status_of_freeSlot : (s.gEvents i).status = 0 := by
  simpa using List.find?_some h

theorem Server.acceptConnection_some (nfd : ℕ) : s.acceptConnection (some nfd) =
      (({ s with os := s.os.accept nfd } : Server).eventSet i nfd .recvData false).eventAdd
        .epollin i := by
  have hi : ({ s with os := s.os.accept nfd } : Server).freeSlot = some i := h
  simp only [Server.acceptConnection, hi]

end

namespace LoopInv

variable {lfd : ℕ} {s : Server}

section

variable (h : LoopInv lfd none s)
include h

/-- A slot that `epoll_wait` returns for a connection. -/
theorem of_ready {i : Fin maxEpollEvents} {callBack : CallBack} {mask : Mask}
    (hi : s.Ready i callBack mask) (hback : callBack ≠ .acceptConnection) :
    (s.gEvents i).status = 1 ∧ i ≠ listeningSlot := by
  refine ⟨(h.entries _ _ _ hi.1).1, ?_⟩
  rintro rfl
  exact hback (hi.2.2.symm.trans h.listens.2.2)

/-- The message arrives and the connection is taken out of its slot. -/
theorem eventDel_putMessage {i : Fin maxEpollEvents} (hi : (s.gEvents i).status = 1)
    (hl : i ≠ listeningSlot) (m : Mem) :
    LoopInv lfd (some (s.gEvents i).fd) ((s.putMessage i m).eventDel i) ∧
      ((s.putMessage i m).eventDel i).gEvents i =
        { s.gEvents i with message := m, status := 0 } := by
  have hone : ((s.putMessage i m).gEvents i).status = 1 := by rw [s.putMessage_self]; exact hi
  have hdel := (h.putMessage i m).eventDel hone hl
  rw [s.putMessage_self] at hdel
  refine ⟨hdel, ?_⟩
  rw [Server.eventDel_self hone, s.putMessage_self]

theorem acceptConnection {nfd : Option ℕ} (hnfd : ∀ fd ∈ nfd, s.os.Lowest fd ∧ s.freeSlot ≠ none) :
    LoopInv lfd none (s.acceptConnection nfd) := by
  cases nfd with
  | none => exact h
  | some nfd =>
    obtain ⟨hlow, hfree⟩ := hnfd nfd rfl
    obtain ⟨i, hi⟩ := ne_none_iff_exists'.1 hfree
    rw [Server.acceptConnection_some hi]
    exact (h.accept hlow.1).attach (Server.status_of_freeSlot hi) false fun _ =>
      .inl ⟨rfl, .inr rfl⟩

theorem recvData {i : Fin maxEpollEvents} {r : Received} (hv : s.Returns (.recv i r))
    (hk : s.KeepsSockets (.recv i r)) : LoopInv lfd none (s.recvData i r) := by
  have hgone : s.Ready i .recvData .epollin →
      LoopInv lfd none ((s.eventDel i).close (s.gEvents i).fd) := fun hr => by
    obtain ⟨hi, hl⟩ := h.of_ready hr nofun
    exact (h.eventDel hi hl).close
  cases r with
  | closed => exact hgone hv
  | failed => exact hgone hv
  | bytes bs opened =>
    obtain ⟨hready, -, -, hopened⟩ := hv
    obtain ⟨hi, hl⟩ := h.of_ready hready nofun
    obtain ⟨hdel, hself⟩ := h.eventDel_putMessage hi hl (recvInto (s.gEvents i).message bs)
    rw [Server.recvData]
    split_ifs with hlen
    · have hfds := (s.putMessage i (recvInto (s.gEvents i).message bs)).eventDel_fds i
      have hfree : ∀ fd ∈ opened, _ = none := fun fd hfd =>
        (congrFun hfds fd).trans (hopened fd hfd).1
      have hreq := hdel.processRequest i (s.client i) hfree (by
        rw [hself, hfds]
        exact fun htype r hr => hk _ (if_pos ⟨hlen, htype⟩) r hr)
      refine hreq.attach ?_ true fun _ => .inr ⟨rfl, rfl⟩
      obtain ⟨m, hm⟩ := Server.processRequest_self _ i (s.client i) opened
      rw [hm, hself]
    · exact hdel.attach (by rw [hself]) false fun _ => .inl ⟨rfl, .inr rfl⟩

theorem sendData {i : Fin maxEpollEvents} (hv : s.Ready i .sendData .epollout) (ok : Bool) :
    LoopInv lfd none (s.sendData i ok) := by
  obtain ⟨hi, hl⟩ := h.of_ready hv nofun
  obtain ⟨c, hc⟩ := h.held i hi hl
  obtain ⟨hdel, hself⟩ :=
    h.eventDel_putMessage hi hl (resetMessage (setType (s.gEvents i).message 0))
  cases ok with
  | true => exact hdel.attach (by rw [hself]) false fun _ => .inl ⟨rfl, .inr rfl⟩
  | false =>
    have hcomm := @Server.eventDel_close
      (s.putMessage i (resetMessage (setType (s.gEvents i).message 0))) i
      (by rw [s.putMessage_self]; exact hi) c (by rw [s.putMessage_self]; exact hc)
    rw [s.putMessage_self] at hcomm
    rw [Server.sendData, if_neg Bool.false_ne_true, hcomm]
    exact hdel.close

/-- A callback keeps the invariant if its request does not close a socket. -/
theorem step {op : ServerOp} (hv : s.Valid op) (hk : s.KeepsSockets op) :
    LoopInv lfd none (s.step op) := by
  cases op with
  | accept nfd => exact h.acceptConnection fun fd hfd => ⟨hv.1.2 fd hfd, hv.2 fd hfd⟩
  | recv i r => exact h.recvData hv.1 hk
  | send i ok => exact h.sendData hv.1 ok

end

/-- The state in which the loop starts. -/
theorem initNetwork (inherited : ℕ → Bool) {efd : ℕ} (hne : efd ≠ lfd) :
    LoopInv lfd none (Server.initNetwork inherited efd lfd) := by
  obtain ⟨s, hgEvents, hfds, hefdEq, hepoll, hinit⟩ : ∃ s : Server,
      s.gEvents = (fun _ => ⟨0, .null, .zero, 0, fun _ => 0⟩) ∧
      (s.os.fds = fun fd => if fd = lfd then some .listening
        else if fd = efd then some .epoll else if inherited fd then some .inherited else none) ∧
      s.os.epollFd = efd ∧ (s.os.epoll = fun _ => none) ∧
      Server.initNetwork inherited efd lfd =
        (s.eventSet listeningSlot lfd .acceptConnection false).eventAdd .epollin listeningSlot := by
    refine ⟨_, rfl, ?_, rfl, rfl, rfl⟩
    funext fd
    simp only [Os.grant, update_apply]
  obtain ⟨m, hadd⟩ := s.eventAdd_eventSet listeningSlot lfd .acceptConnection false .epollin
  have hpoll : s.os.Pollable lfd := by
    simp [Os.Pollable, hfds, hefdEq, hne]
  have hos : s.os.epollAdd lfd .epollin listeningSlot =
      { s.os with epoll := Function.update s.os.epoll lfd (some (.epollin, listeningSlot)) } :=
    if_pos ⟨hpoll, by rw [hepoll]⟩
  rw [hinit, hadd, hos, hgEvents]
  have hslot : ∀ (i : Fin maxEpollEvents), i ≠ listeningSlot →
      ¬ (Function.update (fun _ : Fin maxEpollEvents => (⟨0, .null, .zero, 0, fun _ => 0⟩ :
        RdfsEvent)) listeningSlot ⟨lfd, .acceptConnection, .epollin, 1, m⟩ i).status = 1 := by
    intro i hi
    simp [update_of_ne hi]
  exact
    { epoll_open := by simp [hfds, hefdEq, hne]
      listening_open := by simp [hfds]
      epoll_only := fun fd => by
        simp only [hfds]
        split_ifs <;> simp_all
      listening_only := fun fd => by
        simp only [hfds]
        split_ifs <;> simp_all
      listens := by simp
      status := fun i => by
        by_cases hi : i = listeningSlot
        · subst hi
          simp
        · simp [update_of_ne hi]
      registered := fun i hi => by
        obtain rfl := not_not.1 fun h => hslot i h hi
        simp
      entries := fun fd mask i he => by
        by_cases hfd : fd = lfd
        · subst hfd
          simp only [update_self] at he
          obtain ⟨-, rfl⟩ := he
          simp
        · simp [update_of_ne hfd, hepoll] at he
      waits := fun i hi => by
        obtain rfl := not_not.1 fun h => hslot i h hi
        exact .inl (by simp)
      held := fun i hi hl => absurd hi (hslot i hl)
      owned := fun fd c hfd _ => by
        simp only [hfds] at hfd
        split_ifs at hfd <;> simp at hfd
      missing_open := nofun }

end LoopInv

/-- The slots and the registrations agree : a slot has status 1 if and only if its descriptor is
registered for it with its mask, the mask goes with the callback, every open connection has one
slot, and the listening socket keeps its own. -/
structure EventsOk (lfd : ℕ) (s : Server) : Prop where
  registered : ∀ i, (s.gEvents i).status = 1 ↔
    s.os.epoll (s.gEvents i).fd = some ((s.gEvents i).events, i)
  waits : ∀ i, (s.gEvents i).status = 1 → (s.gEvents i).Waits
  owned : ∀ fd c, s.os.fds fd = some (.connection c) →
    ∃! i, (s.gEvents i).status = 1 ∧ (s.gEvents i).fd = fd
  listens : (s.gEvents listeningSlot).fd = lfd ∧
    (s.gEvents listeningSlot).callBack = .acceptConnection

theorem LoopInv.eventsOk {lfd : ℕ} {s : Server} (h : LoopInv lfd none s) : EventsOk lfd s where
  registered i := ⟨h.registered i, fun he => (h.entries _ _ i he).1⟩
  waits := h.waits
  owned fd c hfd := by
    obtain ⟨i, hi, rfl⟩ := h.owned fd c hfd nofun
    exact ⟨i, ⟨hi, rfl⟩, fun j hj => h.slot_unique hj.1 hi hj.2⟩
  listens := h.listens.2

theorem Os.epollAdd_none {os : Os} {fd g : ℕ} (h : os.epoll fd = none)
    (hne : fd ≠ g ∨ ¬ os.Pollable g) (mask : Mask) (i : Fin maxEpollEvents) :
    (os.epollAdd g mask i).epoll fd = none := by
  rw [Os.epollAdd]
  split_ifs with hadd
  · rcases hne with hne | hne
    · exact (update_of_ne hne _ _).trans h
    · exact absurd hadd.1 hne
  · exact h

/-- Closing a descriptor removes what is registered for it. -/
theorem Os.close_epoll_self {os : Os} {fd : ℕ} {r : Resource} (h : os.fds fd = some r) :
    (os.close fd).epoll fd = none := by
  rw [Os.close, if_neg (by simp [h])]
  split_ifs
  · rfl
  · exact update_self ..

/-- Closing a socket leaves a slot with status 1 whose descriptor is not registered. -/
theorem LoopInv.close_socket {lfd fd g : ℕ} {s : Server} (h : LoopInv lfd (some g) s)
    {r : Resource} (hfd : s.os.fds fd = some r) (hr : r.Socket) (mask : Mask)
    (i : Fin maxEpollEvents) : ((s.os.close fd).epollAdd g mask i).epoll g = none ∨
      ∃ j, (s.gEvents j).status = 1 ∧
        ((s.os.close fd).epollAdd g mask i).epoll (s.gEvents j).fd = none := by
  obtain ⟨⟨c, hc⟩, -⟩ := h.missing_open g rfl
  have hclosed : (s.os.close fd).epoll fd = none := Os.close_epoll_self hfd
  have hself : (s.os.close fd).fds fd = none := by rw [Os.close_fds, update_self]
  cases r with
  | inherited => exact hr.elim
  | file c => exact hr.elim
  | connection d =>
    by_cases hfg : fd = g
    · subst hfg
      refine .inl (Os.epollAdd_none hclosed (.inr fun hp => ?_) mask i)
      have := hp.2
      simp [hself] at this
    · obtain ⟨j, hj, rfl⟩ := h.owned fd d hfd fun h => hfg (some.inj h).symm
      exact .inr ⟨j, hj, Os.epollAdd_none hclosed (.inl hfg) mask i⟩
  | listening =>
    obtain rfl := h.listening_only fd hfd
    have hne : fd ≠ g := by
      rintro rfl
      simp [hc] at hfd
    refine .inr ⟨listeningSlot, h.listens.1, ?_⟩
    rw [h.listens.2.1]
    exact Os.epollAdd_none hclosed (.inl hne) mask i
  | epoll =>
    obtain rfl := h.epoll_only fd hfd
    refine .inl (Os.epollAdd_none ?_ (.inr fun hp => ?_) mask i)
    · rw [Os.close, if_neg (by simp [hfd])]
      exact congrFun (if_pos hfd) g
    · have := hp.1
      rw [Os.close_epollFd, hself] at this
      exact nomatch this

/-- A request that closes a socket breaks the agreement. -/
theorem LoopInv.not_eventsOk {lfd : ℕ} {s : Server} (h : LoopInv lfd none s) {op : ServerOp}
    (hv : s.Valid op) (hk : ¬ s.KeepsSockets op) : ¬ EventsOk lfd (s.step op) := by
  simp only [Server.KeepsSockets, not_forall, not_not] at hk
  obtain ⟨fd, hfd, r, hr, hsocket⟩ := hk
  obtain ⟨i, bs, opened, rfl, hlen, htype, hopen⟩ := Server.of_mem_closes hfd
  obtain ⟨hi, hl⟩ := h.of_ready hv.1.1 nofun
  obtain ⟨hdel, hself⟩ := h.eventDel_putMessage hi hl (recvInto (s.gEvents i).message bs)
  have hfds := (s.putMessage i (recvInto (s.gEvents i).message bs)).eventDel_fds i
  have hstep : s.step (.recv i (.bytes bs opened)) = _ := if_pos hlen
  rw [hstep]
  generalize (s.putMessage i (recvInto (s.gEvents i).message bs)).eventDel i = t at *
  obtain ⟨m, hadd⟩ := (t.processRequest i (s.client i) opened).eventAdd_eventSet i
    (s.gEvents i).fd .sendData true .epollout
  have hos : (t.processRequest i (s.client i) opened).os = t.os.close fd := by
    have hmsg : (t.gEvents i).message = recvInto (s.gEvents i).message bs := by rw [hself]
    rw [← hopen, ← hmsg]
    exact t.os.processRequest_close (by rw [hmsg]; exact htype) _ _
  rw [hadd, hos]
  intro hok
  rcases hdel.close_socket ((congrFun hfds fd).trans hr) hsocket .epollout i with he | ⟨j, hj, he⟩
  · have hone := (hok.registered i).1 (by simp)
    simp only [update_self] at hone
    exact nomatch he.symm.trans hone
  · have hji : j ≠ i := by
      rintro rfl
      simp [hself] at hj
    have hev : (t.processRequest i (s.client i) opened).gEvents j = t.gEvents j :=
      update_of_ne hji _ _
    have hone := (hok.registered j).1 (by simpa [update_of_ne hji, hev] using hj)
    simp only [update_of_ne hji, hev] at hone
    exact nomatch he.symm.trans hone

/-- The server as it is started from a shell. -/
def shellServer : Server := Server.initNetwork (· < 3) 3 4

/-- A request, filled up with zeros. -/
def shortRequest (bs : List UInt8) : List UInt8 := bs ++ List.replicate (1028 - bs.length) 0

/-- The request `rdfsOpenFile` sends for the file `a`. -/
def openA : List UInt8 := shortRequest [0, 0, 0, 0, 50, 58, 52, 50, 48, 58, 97]

/-- The request `rdfsCloseFile` sends for the descriptor 6. -/
def closeSix : List UInt8 := shortRequest [1, 0, 0, 0, 54]

/-- A client connects, has a file opened and closes it. -/
def openClose : List ServerOp :=
  [.accept (some 5), .recv 0 (.bytes openA (some 6)), .send 0 true,
    .recv 0 (.bytes closeSix none), .send 0 true]

/-- Close requests name only numbers that `open` has returned. -/
def Server.NamesOpened (s : Server) (op : ServerOp) : Prop := ∀ fd ∈ s.closes op, fd ∈ s.os.opened

instance (s : Server) (op : ServerOp) : Decidable (s.NamesOpened op) := by
  unfold Server.NamesOpened
  infer_instance

/-- A client closes its file, another one connects and gets the same number, and the first client
closes it again. -/
def closeTwice : List ServerOp :=
  openClose ++ [.accept (some 6), .recv 0 (.bytes closeSix none)]

end Rdfs
