import Rdfs.ServerLoop

/-!
# The clients of the server

All clients of the server in user space share its descriptors. A request to close one names it by
its number, and `rdfs_client_close` closes it, whoever it belongs to. `step_fds_cases` says what a
callback can do to the descriptors : a request closes the one it names, and otherwise none is
closed but the connection of the client itself.

`isolated_iff` says in which runs no client reaches what belongs to another one, or to the server :
those in which every close request names a descriptor of its own client, or none. All of this is
as long as there are slots : without one `rdfs_accept_connection` writes behind `g_events`, and two
connections come to share that place.
-/

namespace Rdfs

open Function Option

/-- What belongs to the server, or to another client than `client`. -/
def Resource.Foreign (client : ℕ) : Resource → Prop
  | .inherited => False
  | .epoll | .listening => True
  | .connection c | .file c => c ≠ client

instance (client : ℕ) : DecidablePred (Resource.Foreign client)
  | .inherited => .isFalse id
  | .epoll | .listening => .isTrue trivial
  | .connection c | .file c => inferInstanceAs (Decidable (c ≠ client))

namespace Server

/-- The client whose data a callback handles. -/
def actor (s : Server) : ServerOp → Option ℕ
  | .accept _ => none
  | .recv i _ | .send i _ => some (s.client i)

/-- What belongs to others stays open. -/
def Isolated (s : Server) (op : ServerOp) : Prop :=
  ∀ c ∈ s.actor op, ∀ fd r, s.os.fds fd = some r → r.Foreign c → (s.step op).os.fds fd = some r

/-- A close request does not name what belongs to others. -/
def NamesOwn (s : Server) (op : ServerOp) : Prop :=
  ∀ c ∈ s.actor op, ∀ fd ∈ s.closes op, ∀ r ∈ s.os.fds fd, ¬ r.Foreign c

instance (s : Server) (op : ServerOp) : Decidable (s.NamesOwn op) := by
  unfold NamesOwn
  infer_instance

end Server

/-! ## What is registered -/

/-- What is registered for a slot other than the listening one is a connection. -/
def Os.Connections (os : Os) : Prop :=
  ∀ fd mask i, os.epoll fd = some (mask, i) → i ≠ listeningSlot →
    ∃ c, os.fds fd = some (.connection c)

variable {fd : ℕ} {opened : Option ℕ} {i : Fin maxEpollEvents} {op : ServerOp}

namespace Os.Connections

variable {os : Os}

section

variable (h : os.Connections)
include h

theorem grant (hfd : os.fds fd = none) (r : Resource) : (os.grant fd r).Connections := by
  intro g mask i he hi
  obtain ⟨c, hc⟩ := h g mask i he hi
  have hne : g ≠ fd := by
    rintro rfl
    simp [hfd] at hc
  exact ⟨c, (update_of_ne hne _ _).trans hc⟩

theorem close (fd : ℕ) : (os.close fd).Connections := by
  intro g mask i he hi
  by_cases hfd : os.fds fd = none
  · rw [Os.close, if_pos hfd] at he ⊢
    exact h g mask i he hi
  · obtain ⟨r, hr⟩ := ne_none_iff_exists'.1 hfd
    have hne : g ≠ fd := by
      rintro rfl
      simp [Os.close_epoll_self hr] at he
    have hg : os.epoll g = some (mask, i) := by
      rw [Os.close, if_neg hfd] at he
      by_cases hep : os.fds fd = some .epoll
      · rw [if_pos hep] at he
        exact absurd he (by simp)
      · rw [if_neg hep] at he
        exact (update_of_ne hne _ _).symm.trans he
    rw [Os.close_fds, update_of_ne hne]
    exact h g mask i hg hi

theorem epollDel (fd : ℕ) : (os.epollDel fd).Connections := by
  intro g mask i he hi
  have hne : g ≠ fd := by
    rintro rfl
    simp [Os.epollDel] at he
  exact h g mask i ((update_of_ne hne _ _).symm.trans he) hi

theorem epollAdd (hfd : ∀ r, os.fds fd = some r → ∃ c, r = .connection c) (mask : Mask)
    (i : Fin maxEpollEvents) : (os.epollAdd fd mask i).Connections := by
  rw [Os.epollAdd]
  split_ifs with hadd
  · intro g mask' j he hj
    by_cases hg : g = fd
    · subst hg
      have hpoll := hadd.1.2
      cases hr : os.fds g with
      | none => simp [hr] at hpoll
      | some r =>
        obtain ⟨c, rfl⟩ := hfd r hr
        exact ⟨c, rfl⟩
    · exact h g mask' j ((update_of_ne hg _ _).symm.trans he) hj
  · exact h

theorem processRequest (client : ℕ) (m : Mem) {opened : Option ℕ}
    (hopened : ∀ fd ∈ opened, os.fds fd = none) :
    (os.processRequest client m opened).2.Connections := by
  rcases os.processRequest_cases client m opened with ⟨-, hos⟩ | ⟨-, hos | ⟨fd, hfd, hos⟩⟩
  · rw [hos]
    exact h.close _
  · rwa [hos]
  · rw [hos]
    exact h.grant (hopened fd hfd) (.file client)

end

end Os.Connections

/-- A connection stays one if a request does not close it. -/
theorem Os.processRequest_connection {os : Os} {fd c client : ℕ} {m : Mem}
    (hfd : os.fds fd = some (.connection c)) (hopened : ∀ fd ∈ opened, os.fds fd = none)
    {r : Resource} (hr : (os.processRequest client m opened).2.fds fd = some r) :
    ∃ c, r = .connection c := by
  rcases os.processRequest_cases client m opened with ⟨-, hos⟩ | ⟨-, hos | ⟨nfd, hnfd, hos⟩⟩
  · rw [hos, Os.close_fds] at hr
    by_cases hne : fd = openFd m
    · rw [hne, update_self] at hr
      exact nomatch hr
    · rw [update_of_ne hne, hfd] at hr
      exact ⟨c, (some.inj hr).symm⟩
  · rw [hos, hfd] at hr
    exact ⟨c, (some.inj hr).symm⟩
  · have hne : fd ≠ nfd := by
      rintro rfl
      simp [hopened fd hnfd] at hfd
    rw [hos] at hr
    exact ⟨c, some.inj (hr.symm.trans ((update_of_ne hne _ _).trans hfd))⟩

/-- What holds in every run : only connections are registered, and the listening slot is in use. -/
structure ClientsInv (s : Server) : Prop where
  connections : s.os.Connections
  listens : (s.gEvents listeningSlot).status = 1 ∧
    (s.gEvents listeningSlot).callBack = .acceptConnection

namespace ClientsInv

variable {s : Server}

section

variable (h : ClientsInv s)
include h

/-- A slot that `epoll_wait` returns for a client is that of its connection. -/
theorem of_ready {callBack : CallBack} {mask : Mask} (hi : s.Ready i callBack mask)
    (hback : callBack ≠ .acceptConnection) :
    i ≠ listeningSlot ∧ s.os.fds (s.gEvents i).fd = some (.connection (s.client i)) := by
  have hl : i ≠ listeningSlot := by
    rintro rfl
    exact hback (hi.2.2.symm.trans h.listens.2)
  obtain ⟨c, hc⟩ := h.connections _ _ _ hi.1 hl
  refine ⟨hl, ?_⟩
  rw [Server.client, hc]

section

variable (hl : i ≠ listeningSlot)
include hl

theorem put (ev : RdfsEvent) {os : Os} (hos : os.Connections) :
    ClientsInv { s.put i ev with os := os } := by
  refine ⟨hos, ?_⟩
  have hev : (s.put i ev).gEvents listeningSlot = s.gEvents listeningSlot :=
    update_of_ne hl.symm _ _
  rw [hev]
  exact h.listens

theorem putMessage (m : Mem) : ClientsInv (s.putMessage i m) := h.put hl _ h.connections

theorem eventDel : ClientsInv (s.eventDel i) := by
  rw [Server.eventDel]
  split_ifs
  · exact h
  · exact h.put hl _ (h.connections.epollDel _)

theorem processRequest (client : ℕ) (hopened : ∀ fd ∈ opened, s.os.fds fd = none) :
    ClientsInv (s.processRequest i client opened) :=
  h.put hl _ (h.connections.processRequest client _ hopened)

end

theorem close (fd : ℕ) : ClientsInv (s.close fd) := ⟨h.connections.close fd, h.listens⟩

theorem attach (hl : i ≠ listeningSlot) (hfd : ∀ r, s.os.fds fd = some r → ∃ c, r = .connection c)
    (callBack : CallBack) (arg : Bool) (mask : Mask) :
    ClientsInv ((s.eventSet i fd callBack arg).eventAdd mask i) := by
  obtain ⟨m, hadd⟩ := s.eventAdd_eventSet i fd callBack arg mask
  rw [hadd]
  exact h.put hl _ (h.connections.epollAdd hfd mask i)

theorem acceptConnection {nfd : Option ℕ} (hnfd : ∀ fd ∈ nfd, s.os.Lowest fd ∧ s.freeSlot ≠ none) :
    ClientsInv (s.acceptConnection nfd) := by
  cases nfd with
  | none => exact h
  | some nfd =>
    obtain ⟨hlow, hfree⟩ := hnfd nfd rfl
    obtain ⟨i, hi⟩ := ne_none_iff_exists'.1 hfree
    have hacc : ClientsInv { s with os := s.os.accept nfd } :=
      ⟨h.connections.grant hlow.1 _, h.listens⟩
    have hl : i ≠ listeningSlot := by
      rintro rfl
      have := Server.status_of_freeSlot hi
      rw [h.listens.1] at this
      exact nomatch this
    have hself : (s.os.accept nfd).fds nfd = some (.connection s.os.clients) := update_self ..
    rw [Server.acceptConnection_some hi]
    exact hacc.attach hl (fun r hr => ⟨_, some.inj (hr.symm.trans hself)⟩) _ _ _

theorem recvData {r : Received} (hv : s.Returns (.recv i r)) : ClientsInv (s.recvData i r) := by
  cases r with
  | closed => exact (h.eventDel (h.of_ready hv nofun).1).close _
  | failed => exact (h.eventDel (h.of_ready hv nofun).1).close _
  | bytes bs opened =>
    obtain ⟨hready, -, -, hopened⟩ := hv
    obtain ⟨hl, hc⟩ := h.of_ready hready nofun
    have hdel := (h.putMessage hl (recvInto (s.gEvents i).message bs)).eventDel hl
    have hfds := (s.putMessage i (recvInto (s.gEvents i).message bs)).eventDel_fds i
    have hfree : ∀ fd ∈ opened, _ = none := fun fd hfd =>
      (congrFun hfds fd).trans (hopened fd hfd).1
    rw [Server.recvData]
    split_ifs
    · refine (hdel.processRequest hl (s.client i) hfree).attach hl (fun r hr => ?_) _ _ _
      exact Os.processRequest_connection ((congrFun hfds _).trans hc) hfree hr
    · refine hdel.attach hl (fun r hr => ⟨s.client i, ?_⟩) _ _ _
      exact some.inj (((congrFun hfds _).symm.trans hr).symm.trans hc)

theorem sendData (hv : s.Ready i .sendData .epollout) (ok : Bool) :
    ClientsInv (s.sendData i ok) := by
  obtain ⟨hl, hc⟩ := h.of_ready hv nofun
  have hmsg := h.putMessage hl (resetMessage (setType (s.gEvents i).message 0))
  cases ok with
  | true =>
    refine (hmsg.eventDel hl).attach hl (fun r hr => ⟨s.client i, ?_⟩) _ _ _
    rw [Server.eventDel_fds] at hr
    exact some.inj (hr.symm.trans hc)
  | false => exact (hmsg.close _).eventDel hl

theorem step (hv : s.Valid op) : ClientsInv (s.step op) := by
  cases op with
  | accept nfd => exact h.acceptConnection fun fd hfd => ⟨hv.1.2 fd hfd, hv.2 fd hfd⟩
  | recv i r => exact h.recvData hv.1
  | send i ok => exact h.sendData hv.1 ok

end

end ClientsInv

/-! ## Which descriptors are closed -/

theorem Server.attach_fds (s : Server) (i : Fin maxEpollEvents) (fd : ℕ) (callBack : CallBack)
    (arg : Bool) (mask : Mask) :
    ((s.eventSet i fd callBack arg).eventAdd mask i).os.fds = s.os.fds := by
  obtain ⟨m, hadd⟩ := s.eventAdd_eventSet i fd callBack arg mask
  rw [hadd, Os.epollAdd]
  split_ifs <;> rfl

/-- A callback closes the descriptor a request names, or the connection of its own client, or it
opens one, or it changes none. -/
theorem ClientsInv.step_fds_cases {s : Server} (h : ClientsInv s) (hv : s.Valid op) :
    (∃ fd ∈ s.closes op, (s.step op).os.fds = Function.update s.os.fds fd none) ∨
    s.closes op = none ∧ ((s.step op).os.fds = s.os.fds ∨ (∃ fd r, s.os.fds fd = none ∧
        (s.step op).os.fds = Function.update s.os.fds fd (some r)) ∨
      ∃ c ∈ s.actor op, ∃ fd, s.os.fds fd = some (.connection c) ∧
        (s.step op).os.fds = Function.update s.os.fds fd none) := by
  cases op with
  | accept nfd =>
    refine .inr ⟨rfl, ?_⟩
    cases nfd with
    | none => exact .inl rfl
    | some nfd =>
      obtain ⟨i, hi⟩ := ne_none_iff_exists'.1 (hv.2 nfd rfl)
      refine .inr (.inl ⟨nfd, .connection s.os.clients, (hv.1.2 nfd rfl).1, ?_⟩)
      rw [Server.step, Server.acceptConnection_some hi, Server.attach_fds]
      rfl
  | recv i r =>
    cases r with
    | closed | failed =>
      obtain ⟨-, hc⟩ := h.of_ready hv.1 nofun
      refine .inr ⟨rfl, .inr (.inr ⟨_, rfl, _, hc, ?_⟩)⟩
      rw [← s.eventDel_fds i]
      exact Os.close_fds _ _
    | bytes bs opened =>
      have hfds := (s.putMessage i (recvInto (s.gEvents i).message bs)).eventDel_fds i
      have hmsg := (s.putMessage i (recvInto (s.gEvents i).message bs)).eventDel_message i
      rw [s.putMessage_self] at hmsg
      by_cases hlen : bs.length = serverMessageSize
      · have hstep : (s.step (.recv i (.bytes bs opened))).os.fds = _ :=
          (congrArg (fun t : Server => t.os.fds) (if_pos hlen)).trans (Server.attach_fds ..)
        rw [hstep]
        generalize (s.putMessage i (recvInto (s.gEvents i).message bs)).eventDel i = t at *
        rcases t.os.processRequest_cases (s.client i) (t.gEvents i).message opened with
          ⟨htype, hos⟩ | ⟨htype, hos | ⟨fd, hfd, hos⟩⟩
        · rw [hmsg] at htype
          refine .inl ⟨_, if_pos ⟨hlen, htype⟩, ?_⟩
          refine (congrArg Os.fds hos).trans ?_
          rw [Os.close_fds, hfds, hmsg]
          rfl
        · rw [hmsg] at htype
          refine .inr ⟨if_neg fun h => htype h.2, .inl ?_⟩
          exact (congrArg Os.fds hos).trans hfds
        · rw [hmsg] at htype
          refine .inr ⟨if_neg fun h => htype h.2, .inr (.inl ⟨fd, .file (s.client i), ?_, ?_⟩)⟩
          · exact (hv.1.2.2.2 fd hfd).1
          · rw [← show t.os.fds = s.os.fds from hfds]
            exact congrArg Os.fds hos
      · refine .inr ⟨if_neg fun h => hlen h.1, .inl ?_⟩
        have hstep : (s.step (.recv i (.bytes bs opened))).os.fds = _ :=
          (congrArg (fun t : Server => t.os.fds) (if_neg hlen)).trans (Server.attach_fds ..)
        exact hstep.trans hfds
  | send i ok =>
    obtain ⟨-, hc⟩ := h.of_ready hv.1 nofun
    refine .inr ⟨rfl, ?_⟩
    cases ok with
    | true =>
      refine .inl ((Server.attach_fds ..).trans ?_)
      rw [Server.eventDel_fds]
      rfl
    | false =>
      refine .inr (.inr ⟨_, rfl, _, hc, ?_⟩)
      exact (Server.eventDel_fds _ i).trans (Os.close_fds _ _)

/-- A callback leaves what belongs to others open if and only if its request does not name it. -/
theorem ClientsInv.isolated_iff_namesOwn {s : Server} (h : ClientsInv s) (hv : s.Valid op) :
    s.Isolated op ↔ s.NamesOwn op := by
  rcases h.step_fds_cases hv with ⟨fd, hfd, hfds⟩ | ⟨hnone, hfds⟩
  · constructor
    · intro hiso c hc g hg r hr hforeign
      obtain rfl := some.inj (hg.symm.trans hfd)
      have hopen := hiso c hc g r hr hforeign
      rw [hfds, update_self] at hopen
      exact nomatch hopen
    · intro hown c hc g r hr hforeign
      have hne : g ≠ fd := by
        rintro rfl
        exact hown c hc g hfd r hr hforeign
      rw [hfds, update_of_ne hne]
      exact hr
  · refine iff_of_true (fun c hc g r hr hforeign => ?_) fun c _ fd hfd => ?_
    · rcases hfds with hfds | ⟨fd, r', hfree, hfds⟩ | ⟨c', hc', fd, hfd, hfds⟩
      · rw [hfds]
        exact hr
      · have hne : g ≠ fd := by
          rintro rfl
          exact nomatch hfree.symm.trans hr
        rw [hfds, update_of_ne hne]
        exact hr
      · have hne : g ≠ fd := by
          rintro rfl
          obtain rfl := some.inj (hr.symm.trans hfd)
          exact hforeign (some.inj (hc'.symm.trans hc))
        rw [hfds, update_of_ne hne]
        exact hr
    · exact nomatch hnone.symm.trans hfd

theorem ClientsInv.initNetwork (inherited : ℕ → Bool) (efd lfd : ℕ) :
    ClientsInv (Server.initNetwork inherited efd lfd) := by
  rw [Server.initNetwork]
  obtain ⟨m, hadd⟩ := Server.eventAdd_eventSet _ listeningSlot lfd .acceptConnection false .epollin
  rw [hadd]
  refine ⟨fun fd mask i he hi => ?_, by simp⟩
  rw [Os.epollAdd] at he
  split_ifs at he
  · by_cases hfd : fd = lfd
    · subst hfd
      simp only [update_self, some.injEq, Prod.mk.injEq] at he
      exact absurd he.2.symm hi
    · exact absurd (he.symm.trans (update_of_ne hfd _ _)) (some_ne_none _)
  · exact absurd he.symm (some_ne_none _)

/-- Two clients connect, and the first one sends a request to close the socket of the second. -/
def closeOther : List ServerOp :=
  [.accept (some 5), .accept (some 6), .recv 0 (.bytes closeSix none)]

end Rdfs
