import Rdfs.Handshake
import Rdfs.Reply
import Rdfs.ServerStream
import Rdfs.Trace

/-!
# A client and the master

A client and the master exchange messages on a stream in each direction. The client sends 1032
bytes and asks for as many, the master sends 4104 bytes and asks for as many, and both take what one
`recv` returns for a message. The master makes a task of everything it receives, also of the end of
the stream, and its workers take the tasks, the last one first. A client that connects asks for the
slaves first; the master sends one message for each.

Of every message of the master a client leaves 3072 bytes in the stream, and what it receives next
begins there. `framed_iff` says which runs are free of this : those in which the master receives
whole messages, and the client no more than the beginning of the first one.
-/

namespace Rdfs

open List Option

/-! ## The code -/

/-- What the master knows of a slave and tells a client. -/
structure SlaveEntry where
  slaveId : BitVec 32
  ip : BitVec 32
  clientRegisterPort : BitVec 32
deriving DecidableEq, Repr

/-- The text for a slave, with the number of slaves that follow. -/
def SlaveEntry.text (e : SlaveEntry) (t : ℕ) : Text :=
  sprintf slaveInfoFormat
    [.word t, .word e.slaveId.toNat, .word e.ip.toNat, .word e.clientRegisterPort.toNat]

/-- The loop of `rdfs_search_slave_info` : the messages that are sent. Every text is printed over
the one before. -/
def searchLoop (m : Mem) : List SlaveEntry → List (List UInt8)
  | [] => []
  | e :: es =>
    let m := printData m (e.text es.length)
    m.bytes masterMessageSize 0 :: searchLoop m es

/-- `rdfs_search_slave_info`; the local `message` lies in `buf`. -/
def rdfsSearchSlaveInfo (slaves : List SlaveEntry) (buf : Mem) : List (List UInt8) :=
  searchLoop (setType (clearData buf maxMessageLength) clientSerachSlaveInfo) slaves

/-- `RDFS_CLIENT_READ`. -/
def rdfsClientRead : ℕ := 5

/-- `RDFS_CLIENT_WRITE`. -/
def rdfsClientWrite : ℕ := 6

/-- What the file system has for a request : the inode and the size of the file that is opened, and
the segments of a range, `none` if they cannot be allocated. -/
structure Found where
  ino : ℕ
  fileSize : ℕ
  segments : Option (List Segment)

/-- The messages that `rdfs_process_task` sends for a task. -/
def processTask (slaves : List SlaveEntry) (buf : Mem) (found : Found) (m : Mem) :
    List (List UInt8) :=
  if mType m = clientSerachSlaveInfo then rdfsSearchSlaveInfo slaves buf
  else if mType m = rdfsClientRead ∨ mType m = rdfsClientWrite then
    [match found.segments with
      | some segs => encodeReply m segs
      | none => m.bytes masterMessageSize 0]
  else if mType m = rdfsClientOpen then
    [(printData m (sprintf [.num .d, .lit colon, .num .ld]
      [.word found.ino, .word found.fileSize])).bytes masterMessageSize 0]
  else []

/-- Where a client is : it has not connected, it asks for the slaves, it is between two calls, or it
waits for a reply with a `recv` of this size. -/
inductive ClientPhase
  | start
  | discovering
  | idle
  | waiting (size : ℕ)
deriving DecidableEq, Repr

/-- A call of the client library that asks the master. -/
inductive MasterCall
  | openFile (path : Text)
  | io (ino offset length : ℕ)
deriving DecidableEq, Repr

/-- The message of a call; it lies in `buf`. -/
def MasterCall.message (buf : Mem) : MasterCall → List UInt8
  | .openFile path => (printData (setType buf rdfsClientOpen) path).bytes clientMessageSize 0
  | .io ino offset length => (printData (setType buf rdfsClientWrite)
      (sprintf [.num .d, .lit colon, .num .ld, .lit colon, .num .ld]
        [.word ino, .word offset, .word length])).bytes clientMessageSize 0

/-- What a call passes to `recv`. -/
def MasterCall.size : MasterCall → ℕ
  | .openFile _ => clientMessageSize
  | .io _ _ _ => searchMessageSize

/-- The context of `rdfsConnect`, which is `NULL`. -/
def noContext : ClientContext := ⟨zeroEndpoint, zeroEndpoint, 0⟩

/-- A connection : the bytes on their way to the master and to the client, whether the client has
closed it, the tasks, where the client is and the slaves it has connected to. What has been sent and
what every `recv` has returned is recorded; the master has made one task for each of `received`. -/
structure Link where
  up : List UInt8
  down : List UInt8
  closed : Bool
  tasks : List Mem
  client : ClientPhase
  connected : List SlaveEntry
  requests : List (List UInt8)
  received : List (List UInt8)
  sent : List (List UInt8)
  got : List (List UInt8)

namespace Link

/-- A connection that has been accepted. -/
def start : Link := ⟨[], [], false, [], .start, [], [], [], [], []⟩

/-- The client sends a message. -/
def send (l : Link) (message : List UInt8) (client : ClientPhase) : Link :=
  { l with up := l.up ++ message, requests := l.requests ++ [message], client := client }

/-- `rdfs_process_request` of the master, where `recv` returns `n` bytes; the message is allocated
at `buf`, and `rdfs_add_task` puts the task in front. -/
def processRequest (l : Link) (buf : Mem) (n : ℕ) : Link :=
  { l with
    up := l.up.drop n
    tasks := recvInto (clearData buf maxMessageLength) (l.up.take n) :: l.tasks
    received := l.received ++ [l.up.take n] }

/-- The client receives `n` bytes. While it asks for the slaves it connects to the one the message
names, and goes on if slaves follow; `vars` is in its variables before. -/
def clientRecv (l : Link) (buf : Mem) (vars : BitVec 32 × SlaveEntry) (n : ℕ) : Link :=
  let bs := l.down.take n
  let l := { l with down := l.down.drop n, got := l.got ++ [bs] }
  match l.client with
  | .discovering => match (clientRecvMessage noContext buf bs).2 with
    | some args =>
      let slaveNum := storeWord args 0 vars.1
      let e : SlaveEntry :=
        { slaveId := storeWord args 1 vars.2.slaveId
          ip := storeWord args 2 vars.2.ip
          clientRegisterPort := storeWord args 3 vars.2.clientRegisterPort }
      { l with
        connected := l.connected ++ [e]
        client := if slaveNum = 0 then .idle else .discovering }
    | none => { l with client := .idle }
  | _ => { l with client := .idle }

end Link

/-- One step of the client, of the master that receives, or of a worker of the master. -/
inductive LinkOp
  | connect (buf : Mem)
  | call (buf : Mem) (c : MasterCall)
  | masterRecv (buf : Mem) (n : ℕ)
  | work (buf : Mem) (found : Found)
  | clientRecv (buf : Mem) (vars : BitVec 32 × SlaveEntry) (n : ℕ)
  | close

namespace Link

variable (slaves : List SlaveEntry)

/-- One step. -/
def step (l : Link) : LinkOp → Link
  | .connect buf => l.send (clientSendMessage noContext buf clientSerachSlaveInfo).2 .discovering
  | .call buf c => l.send (c.message buf) (.waiting c.size)
  | .masterRecv buf n => l.processRequest buf n
  | .work buf found => match l.tasks with
    | [] => l
    | m :: tasks =>
      let messages := processTask slaves buf found m
      { l with
        tasks := tasks
        down := l.down ++ messages.flatten
        sent := l.sent ++ messages }
  | .clientRecv buf vars n => l.clientRecv buf vars n
  | .close => { l with closed := true }

/-- The most that the client's `recv` returns. -/
def recvSize (l : Link) : ℕ :=
  match l.client with
  | .discovering => clientMessageSize
  | .waiting size => size
  | _ => 0

/-- A step can be taken : the client takes one after another until it closes, and `recv` returns
bytes that are there, or none after the client has closed. -/
def Valid (l : Link) : LinkOp → Prop
  | .connect _ => l.closed = false ∧ l.client = .start
  | .call _ _ => l.closed = false ∧ l.client = .idle
  | .masterRecv _ n => n ≤ masterMessageSize ∧ n ≤ l.up.length ∧
      (n = 0 → l.closed = true ∧ l.up = [])
  | .work _ _ => l.tasks ≠ []
  | .clientRecv _ _ n => l.closed = false ∧ 0 < n ∧ n ≤ l.recvSize ∧ n ≤ l.down.length
  | .close => l.closed = false

instance (l : Link) : ∀ op, Decidable (l.Valid op)
  | .connect _ | .call _ _ => inferInstanceAs (Decidable (_ ∧ _))
  | .masterRecv _ _ => inferInstanceAs (Decidable (_ ∧ _ ∧ (_ → _)))
  | .work _ _ => decidable_of_iff (l.tasks.isEmpty = false) (by simp [Valid])
  | .clientRecv _ _ _ => inferInstanceAs (Decidable (_ ∧ _ ∧ _ ∧ _))
  | .close => inferInstanceAs (Decidable (_ = _))

/-- The master receives a whole message, and the client the beginning of the first one. -/
def Whole (l : Link) : LinkOp → Prop
  | .masterRecv _ n => n = clientMessageSize
  | .clientRecv _ _ n => n = clientMessageSize ∧ l.got = []
  | _ => True

instance (l : Link) : ∀ op, Decidable (l.Whole op)
  | .masterRecv _ _ => inferInstanceAs (Decidable (_ = _))
  | .clientRecv _ _ _ => inferInstanceAs (Decidable (_ ∧ _))
  | .connect _ | .call _ _ | .work _ _ | .close => .isTrue trivial

end Link

/-- The tasks are the requests, in order, and each reply the client receives begins as the next
message of the master does. The slaves the client has connected to are the first ones. -/
structure Framed (slaves : List SlaveEntry) (l : Link) : Prop where
  tasks : l.received <+: l.requests
  drained : l.up = [] → l.received = l.requests
  replies : l.got.map (List.take clientMessageSize) <+: l.sent.map (List.take clientMessageSize)
  connected : l.connected <+: slaves

/-! ## The messages of the master -/

/-- A message of the master has its size, and its type or the first character of its text is not
0. -/
def Marked (m : List UInt8) : Prop :=
  m.length = masterMessageSize ∧ ¬ (m[0]? = some 0 ∧ m[4]? = some 0)

theorem mType_mod (m : Mem) : mType m % 256 = (m 0).toNat := by
  have hlt := (m 0).toNat_lt
  rw [mType, Mem.load]
  omega

theorem marked_of_mType {m : Mem} (h : mType m % 256 ≠ 0) :
    Marked (m.bytes masterMessageSize 0) := by
  refine ⟨Mem.length_bytes _ _ _, fun hm => h ?_⟩
  have h0 := hm.1
  rw [Mem.getElem?_bytes _ _ (by decide)] at h0
  rw [mType_mod, some.inj h0]
  rfl

theorem searchLoop_marked :
    ∀ (es : List SlaveEntry) {m : Mem}, mType m % 256 ≠ 0 → ∀ x ∈ searchLoop m es, Marked x
  | [], _, _, _, hx => nomatch hx
  | e :: es, m, hm, x, hx => by
    have hm' : mType (printData m (e.text es.length)) % 256 ≠ 0 := by rwa [mType_printData]
    rw [searchLoop, mem_cons] at hx
    rcases hx with hx | hx
    · rw [hx]
      exact marked_of_mType hm'
    · exact searchLoop_marked es hm' x hx

theorem rdfsSearchSlaveInfo_marked (slaves : List SlaveEntry) (buf : Mem) :
    ∀ x ∈ rdfsSearchSlaveInfo slaves buf, Marked x := by
  refine searchLoop_marked slaves ?_
  rw [mType_setType _ (by decide)]
  decide

theorem encodeReply_marked {m : Mem} (h : mType m % 256 ≠ 0) (segs : List Segment) :
    Marked (encodeReply m segs) := by
  refine marked_of_mType ?_
  rwa [mType_mod, Mem.sameOff_store _ _ _ _ _ (by decide),
    encodeLoop_sameOff segs m 0 _ (by omega), ← mType_mod]

theorem openReply_marked (m : Mem) (ino fileSize : ℕ) :
    Marked ((printData m (sprintf [.num .d, .lit colon, .num .ld]
      [.word ino, .word fileSize])).bytes masterMessageSize 0) := by
  refine ⟨Mem.length_bytes _ _ _, fun hm => ?_⟩
  have h4 := hm.2
  rw [Mem.getElem?_bytes _ _ (by decide)] at h4
  have hne : Conv.d.print ino ≠ [] := by
    rw [Conv.print]
    split_ifs
    · exact cons_ne_nil _ _
    · exact Conv.Ok.digits_ne_nil _
  obtain ⟨b, t, hbt⟩ := exists_cons_of_ne_nil hne
  have hb : b ≠ 0 := by
    rintro rfl
    exact Conv.ok_d.zero_not_mem_print ino (hbt ▸ mem_cons_self)
  refine hb ((some.inj h4).symm ▸ ?_)
  rw [sprintf, hbt]
  rfl

/-- Every message of the master is marked. -/
theorem processTask_marked (slaves : List SlaveEntry) (buf : Mem) (found : Found) (m : Mem) :
    ∀ x ∈ processTask slaves buf found m, Marked x := by
  intro x hx
  rw [processTask] at hx
  split_ifs at hx with h3 h56 h0
  · exact rdfsSearchSlaveInfo_marked slaves buf x hx
  · have htype : mType m % 256 ≠ 0 := by rcases h56 with h | h <;> rw [h] <;> decide
    rw [mem_singleton.1 hx]
    cases found.segments with
    | none => exact marked_of_mType htype
    | some segs => exact encodeReply_marked htype segs
  · rw [mem_singleton.1 hx]
    exact openReply_marked m _ _
  · exact nomatch hx

/-- The first message about the slaves, in the memory of the master. -/
def firstReply (buf : Mem) (e : SlaveEntry) (es : List SlaveEntry) : Mem :=
  printData (setType (clearData buf maxMessageLength) clientSerachSlaveInfo) (e.text es.length)

theorem SlaveEntry.readable (e : SlaveEntry) {t : ℕ} (ht : t < 2 ^ 32) : Readable slaveInfoFormat
      [.word t, .word e.slaveId.toNat, .word e.ip.toNat, .word e.clientRegisterPort.toNat] := by
  have hcolon : ∀ i ∈ (some (Item.lit colon)), ∃ b, i = .lit b ∧ digitValue b = 16 ∧
      isX b = false := by
    rintro i hi
    obtain rfl := some.inj hi
    exact ⟨colon, rfl, by decide, by decide⟩
  exact ⟨Conv.ok_d, ht, hcolon, Conv.ok_d, e.slaveId.isLt, hcolon, Conv.ok_u, e.ip.isLt, hcolon,
    Conv.ok_d, e.clientRegisterPort.isLt, nofun, trivial⟩

/-- Behind its text the first message holds zeros. -/
theorem firstReply_zero (buf : Mem) (e : SlaveEntry) {es : List SlaveEntry}
    (hes : es.length < 2 ^ 32) {x : ℕ} (hx : 460 ≤ x) (hx' : x < 4 + maxMessageLength) :
    firstReply buf e es x = 0 := by
  have hlen : (e.text es.length).length ≤ 455 := (e.readable hes).length_sprintf_le (by decide)
  have hprint := Mem.sameOff_blit (setType (clearData buf maxMessageLength) clientSerachSlaveInfo)
    4 (e.text es.length ++ [0]) x (by rw [length_append, length_singleton]; omega)
  refine hprint.trans ?_
  rw [setType, Mem.sameOff_store _ _ _ _ x (by omega)]
  exact if_pos ⟨by omega, hx'⟩

/-- From the beginning of the first message the client scans the slave. -/
theorem clientRecvMessage_firstReply (buf buf' : Mem) (e : SlaveEntry) {es : List SlaveEntry}
    (hes : es.length < 2 ^ 32) : (clientRecvMessage noContext buf'
      (((firstReply buf e es).bytes masterMessageSize 0).take clientMessageSize)).2 =
      some [.word es.length, .word e.slaveId.toNat, .word e.ip.toNat,
        .word e.clientRegisterPort.toNat] := by
  obtain ⟨htype, hscan⟩ := recv_printData
    (setType (clearData buf maxMessageLength) clientSerachSlaveInfo)
    (clearData buf' clientMessageLength) (by decide : 4 + clientMessageLength ≤ masterMessageSize)
    (by decide : _ ≤ clientMessageSize) (e.readable hes) (by decide) (by decide) (by decide) .user
  rw [mType_setType _ (by decide)] at htype
  have hne : clientSerachSlaveInfo ≠ slaveCtxToClient := by decide
  rw [clientRecvMessage, firstReply, SlaveEntry.text]
  simp only [htype, hne, if_false, if_true, hscan]

/-- What the client has received after a step in which it receives. -/
theorem Link.clientRecv_got (l : Link) (buf : Mem) (vars : BitVec 32 × SlaveEntry)
    (n : ℕ) : (l.clientRecv buf vars n).got = l.got ++ [l.down.take n] ∧
      (l.clientRecv buf vars n).sent = l.sent := by
  rw [Link.clientRecv]
  split
  · split <;> exact ⟨rfl, rfl⟩
  · exact ⟨rfl, rfl⟩

/-! ## The invariant -/

/-- What holds as long as only whole messages are received : the master has received the first
requests, and the client nothing, or the beginning of the first message. Before that it has sent
nothing but its question for the slaves. -/
structure StreamInv (slaves : List SlaveEntry) (l : Link) : Prop where
  upstream : ∃ rest, l.requests = l.received ++ rest ∧ l.up = rest.flatten
  sizes : ∀ m ∈ l.requests, m.length = clientMessageSize
  downstream : l.sent.flatten = l.got.flatten ++ l.down
  marked : ∀ m ∈ l.sent, Marked m
  first : ∀ m, l.sent.head? = some m → ∃ buf e es, slaves = e :: es ∧
    m = (firstReply buf e es).bytes masterMessageSize 0
  quiet : l.got = [] → (l.client = .start ∨ l.client = .discovering) ∧
    (∀ m ∈ l.requests, ∃ buf, m = (clientSendMessage noContext buf clientSerachSlaveInfo).2) ∧
    ∀ t ∈ l.tasks, mType t = clientSerachSlaveInfo
  got : l.got = [] ∧ l.connected = [] ∨ ∃ m, l.sent.head? = some m ∧
    l.got = [m.take clientMessageSize] ∧ l.connected <+: slaves

namespace StreamInv

variable {slaves : List SlaveEntry} {l : Link}

theorem start : StreamInv slaves Link.start where
  upstream := ⟨[], rfl, rfl⟩
  sizes _ h := nomatch h
  downstream := rfl
  marked _ h := nomatch h
  first _ h := nomatch h
  quiet _ := ⟨.inl rfl, nofun, nofun⟩
  got := .inl ⟨rfl, rfl⟩

theorem framed (h : StreamInv slaves l) : Framed slaves l where
  tasks := by
    obtain ⟨rest, hreq, -⟩ := h.upstream
    exact ⟨rest, hreq.symm⟩
  drained hup := by
    obtain ⟨rest, hreq, hrest⟩ := h.upstream
    cases rest with
    | nil => rw [hreq, append_nil]
    | cons m rest =>
      have hm := h.sizes m (by rw [hreq]; exact mem_append_right _ mem_cons_self)
      rw [hup, flatten_cons] at hrest
      rw [(append_eq_nil_iff.1 hrest.symm).1] at hm
      exact nomatch hm
  replies := by
    rcases h.got with ⟨hgot, -⟩ | ⟨m, hm, hgot, -⟩
    · rw [hgot]
      exact nil_prefix
    · obtain ⟨ms, hms⟩ : ∃ ms, l.sent = m :: ms := head?_eq_some_iff.1 hm
      rw [hgot, hms, map_cons, map_cons, take_take, Nat.min_self]
      exact ⟨_, rfl⟩
  connected := by
    rcases h.got with ⟨-, hconn⟩ | ⟨m, -, -, hconn⟩
    · rw [hconn]
      exact nil_prefix
    · exact hconn

/-- The client sends a message. -/
theorem send (h : StreamInv slaves l) {message : List UInt8} {client : ClientPhase}
    (hlen : message.length = clientMessageSize) (hquiet : l.got = [] → client = .discovering ∧
      ∃ buf, message = (clientSendMessage noContext buf clientSerachSlaveInfo).2) :
    StreamInv slaves (l.send message client) := by
  obtain ⟨rest, hreq, hup⟩ := h.upstream
  refine { h with upstream := ⟨rest ++ [message], ?_, ?_⟩, sizes := ?_, quiet := ?_ }
  · rw [Link.send, hreq, append_assoc]
  · rw [Link.send, hup, flatten_append, flatten_singleton]
  · intro m hm
    rcases mem_append.1 hm with hm | hm
    · exact h.sizes m hm
    · rw [mem_singleton.1 hm, hlen]
  · intro hgot
    obtain ⟨hclient, hmessage⟩ := hquiet hgot
    obtain ⟨-, hsearch, htasks⟩ := h.quiet hgot
    refine ⟨.inr hclient, fun m hm => ?_, htasks⟩
    rcases mem_append.1 hm with hm | hm
    · exact hsearch m hm
    · rw [mem_singleton.1 hm]
      exact hmessage

/-- The next bytes for the master are those of the next message. -/
theorem next_request (h : StreamInv slaves l) (hn : clientMessageSize ≤ l.up.length) :
    ∃ m rest, l.requests = l.received ++ m :: rest ∧ l.up.take clientMessageSize = m ∧
      l.up.drop clientMessageSize = rest.flatten := by
  obtain ⟨rest, hreq, hup⟩ := h.upstream
  cases rest with
  | nil =>
    rw [hup] at hn
    exact absurd hn (by decide)
  | cons m rest =>
    have hm := h.sizes m (by rw [hreq]; exact mem_append_right _ mem_cons_self)
    rw [flatten_cons] at hup
    exact ⟨m, rest, hreq, by rw [hup, ← hm, take_left], by rw [hup, ← hm, drop_left]⟩

theorem mType_recv_search (buf buf' : Mem) :
    mType (recvInto buf' (clientSendMessage noContext buf clientSerachSlaveInfo).2) =
      clientSerachSlaveInfo := by
  have hsame := Mem.sameOn_blit_bytes
    (setType (clearData buf clientMessageLength) clientSerachSlaveInfo) buf' clientMessageSize 0
  have hload := Mem.load_congr (hsame.mono le_rfl (by decide : 0 + 4 ≤ 0 + clientMessageSize))
  rw [clientSendMessage, recvInto, mType, hload]
  exact mType_setType _ (by decide)

section

variable (h : StreamInv slaves l)
include h

/-- The master receives a whole message. -/
theorem masterRecv (buf : Mem) (hn : clientMessageSize ≤ l.up.length) :
    StreamInv slaves (l.processRequest buf clientMessageSize) := by
  obtain ⟨m, rest, hreq, htake, hdrop⟩ := h.next_request hn
  refine { h with upstream := ⟨rest, ?_, hdrop⟩, quiet := fun hgot => ?_ }
  · rw [Link.processRequest, htake, append_assoc]
    exact hreq
  · obtain ⟨hclient, hsearch, htasks⟩ := h.quiet hgot
    refine ⟨hclient, hsearch, fun t ht => ?_⟩
    rcases mem_cons.1 ht with ht | ht
    · obtain ⟨buf', hm⟩ := hsearch m <| by
        rw [hreq]
        exact mem_append_right _ mem_cons_self
      rw [ht, htake, hm]
      exact mType_recv_search buf' _
    · exact htasks t ht

/-- A worker takes a task. -/
theorem work (buf : Mem) (found : Found) : StreamInv slaves (l.step slaves (.work buf found)) := by
  rw [Link.step]
  cases htasks : l.tasks with
  | nil => exact h
  | cons t tasks =>
    refine { h with downstream := ?_, marked := ?_, first := ?_, quiet := ?_, got := ?_ }
    · rw [flatten_append, h.downstream, append_assoc]
    · intro m hm
      rcases mem_append.1 hm with hm | hm
      · exact h.marked m hm
      · exact processTask_marked slaves buf found t m hm
    · intro m hm
      cases hsent : l.sent with
      | cons m' ms =>
        rw [hsent] at hm
        exact h.first m (by rw [hsent]; exact hm)
      | nil =>
        -- nothing has been sent, so the task is a question for the slaves
        have hgot : l.got = [] := by
          rcases h.got with ⟨hgot, -⟩ | ⟨m', hm', -⟩
          · exact hgot
          · rw [hsent] at hm'
            exact nomatch hm'
        have htype := (h.quiet hgot).2.2 t (by rw [htasks]; exact mem_cons_self)
        have hhead : (l.sent ++ processTask slaves buf found t).head? = some m := hm
        rw [hsent, nil_append, processTask, if_pos htype] at hhead
        cases slaves with
        | nil => exact nomatch hhead
        | cons e es => exact ⟨buf, e, es, rfl, (some.inj hhead).symm⟩
    · intro hgot
      obtain ⟨hclient, hsearch, hall⟩ := h.quiet hgot
      exact ⟨hclient, hsearch, fun t' ht' => hall t' (by rw [htasks]; exact .tail _ ht')⟩
    · refine h.got.imp id ?_
      rintro ⟨m, hm, hrest⟩
      refine ⟨m, ?_, hrest⟩
      obtain ⟨ms, hms⟩ := head?_eq_some_iff.1 hm
      rw [hms]
      rfl

/-- The client receives the beginning of the first message. -/
theorem clientRecv (hslaves : slaves.length < 2 ^ 32) (buf : Mem) (vars : BitVec 32 × SlaveEntry)
    (hgot : l.got = []) (hn : clientMessageSize ≤ l.down.length)
    (hsize : clientMessageSize ≤ l.recvSize) :
    StreamInv slaves (l.clientRecv buf vars clientMessageSize) := by
  have hclient : l.client = .discovering := by
    rcases (h.quiet hgot).1 with hc | hc
    · rw [Link.recvSize, hc] at hsize
      exact absurd hsize (by decide)
    · exact hc
  have hdown := h.downstream
  rw [hgot, flatten_nil, nil_append] at hdown
  cases hsent : l.sent with
  | nil =>
    rw [← hdown, hsent] at hn
    exact absurd hn (by decide)
  | cons m ms =>
    obtain ⟨buf', e, es, hes, hm⟩ := h.first m (by rw [hsent]; rfl)
    have hlen := (h.marked m (by rw [hsent]; exact mem_cons_self)).1
    have htake : l.down.take clientMessageSize = m.take clientMessageSize := by
      rw [← hdown, hsent, flatten_cons, take_append_of_le_length]
      rw [hlen]
      decide
    have hlt : es.length < 2 ^ 32 := by
      rw [hes, length_cons] at hslaves
      omega
    have hscan := clientRecvMessage_firstReply buf' buf e hlt
    rw [← hm, ← htake] at hscan
    have hstep : ∃ client, l.clientRecv buf vars clientMessageSize = { l with
        down := l.down.drop clientMessageSize
        got := l.got ++ [l.down.take clientMessageSize]
        connected := l.connected ++ [e]
        client := client } := by
      simp only [Link.clientRecv, hclient, hscan]
      simp [storeWord]
    obtain ⟨client, hstep⟩ := hstep
    have hconn : l.connected = [] := by
      rcases h.got with ⟨-, hconn⟩ | ⟨m', -, hgot', -⟩
      · exact hconn
      · exact absurd (hgot.symm.trans hgot') (cons_ne_nil _ _).symm
    rw [hstep]
    refine { h with downstream := ?_, quiet := ?_, got := .inr ⟨m, ?_, ?_, ?_⟩ }
    · simp only [hgot, nil_append, flatten_singleton, take_append_drop]
      exact hdown
    · intro hnil
      rw [hgot] at hnil
      exact absurd hnil (cons_ne_nil _ _)
    · rw [hsent]
      rfl
    · rw [hgot, htake]
      rfl
    · rw [hconn, hes]
      exact ⟨es, rfl⟩

/-- A step keeps the invariant if it receives a whole message. -/
theorem step (hslaves : slaves.length < 2 ^ 32) {op : LinkOp} (hv : l.Valid op) (hw : l.Whole op) :
    StreamInv slaves (l.step slaves op) := by
  cases op with
  | connect buf =>
    have hlen : (clientSendMessage noContext buf clientSerachSlaveInfo).2.length =
        clientMessageSize := by
      rw [clientSendMessage, Mem.length_bytes]
    exact h.send hlen fun _ => ⟨rfl, buf, rfl⟩
  | call buf c =>
    have hlen : (c.message buf).length = clientMessageSize := by
      cases c <;> exact Mem.length_bytes _ _ _
    refine h.send hlen fun hgot => ?_
    rcases (h.quiet hgot).1 with hc | hc <;> cases hv.2.symm.trans hc
  | masterRecv buf n =>
    obtain rfl : n = clientMessageSize := hw
    exact h.masterRecv buf hv.2.1
  | work buf found => exact h.work buf found
  | clientRecv buf vars n =>
    obtain ⟨rfl, hgot⟩ : n = clientMessageSize ∧ l.got = [] := hw
    exact h.clientRecv hslaves buf vars hgot hv.2.2.2 hv.2.2.1
  | close => exact { h with }

/-- If the master receives less than a message or more, the task is none of the requests. -/
theorem not_framed_masterRecv (buf : Mem) {n : ℕ} (hn : n ≤ l.up.length)
    (hne : n ≠ clientMessageSize) : ¬ Framed slaves (l.processRequest buf n) := by
  intro hf
  have hmem : l.up.take n ∈ l.requests := hf.tasks.subset (mem_append_right _ mem_cons_self)
  have hlen := h.sizes _ hmem
  rw [length_take, Nat.min_eq_left hn] at hlen
  exact hne hlen

/-- What the client receives after the beginning of the first message is the rest of it. -/
theorem not_framed_clientRecv (hslaves : slaves.length < 2 ^ 32) (buf : Mem)
    (vars : BitVec 32 × SlaveEntry) {n : ℕ} (hsize : n ≤ l.recvSize) (hn : n ≤ l.down.length)
    (hne : ¬ (n = clientMessageSize ∧ l.got = [])) : ¬ Framed slaves (l.clientRecv buf vars n) := by
  intro hf
  have hreplies := hf.replies
  obtain ⟨hgot', hsent'⟩ := l.clientRecv_got buf vars n
  rw [hgot', hsent'] at hreplies
  obtain ⟨m', hm', htake⟩ : ∃ m', l.sent[l.got.length]? = some m' ∧
      m'.take clientMessageSize = (l.down.take n).take clientMessageSize := by
    obtain ⟨tail, htail⟩ := hreplies
    have hget := congrArg (·[l.got.length]?) htail
    simp only [map_append, append_assoc, getElem?_map] at hget
    rw [getElem?_append_right (by rw [length_map]), length_map, Nat.sub_self] at hget
    exact map_eq_some_iff.1 hget.symm
  have hmarked := h.marked m' (mem_of_getElem? hm')
  have hle : clientMessageSize ≤ n := by
    have hlen := congrArg List.length htake
    rw [length_take, length_take, length_take, Nat.min_eq_left hn, hmarked.1] at hlen
    exact Nat.min_eq_left (by decide : clientMessageSize ≤ masterMessageSize) ▸ hlen ▸
      Nat.min_le_right _ _
  rcases h.got with ⟨hgot, -⟩ | ⟨m, hm, hgot, -⟩
  · refine hne ⟨?_, hgot⟩
    rcases (h.quiet hgot).1 with hc | hc
    · rw [Link.recvSize, hc] at hsize
      exact absurd (hle.trans hsize) (by decide)
    · rw [Link.recvSize, hc] at hsize
      exact Nat.le_antisymm hsize hle
  · obtain ⟨buf', e, es, hes, hfirst⟩ := h.first m hm
    obtain ⟨ms, hms⟩ := head?_eq_some_iff.1 hm
    have hlt : es.length < 2 ^ 32 := by
      rw [hes, length_cons] at hslaves
      omega
    have hdown : l.down = m.drop clientMessageSize ++ ms.flatten := by
      have hall := h.downstream
      rw [hms, hgot, flatten_cons, flatten_singleton] at hall
      refine (append_cancel_left (hall.symm.trans ?_))
      rw [← append_assoc, take_append_drop]
    -- the bytes 1032 and 1036 of the first message are zeros
    have hzero : ∀ j, j < 5 → m'[j]? = some 0 := by
      intro j hj
      have hj' : j < clientMessageSize := Nat.lt_trans hj (by decide)
      have hget := congrArg (·[j]?) htake
      simp only [getElem?_take_of_lt hj', getElem?_take_of_lt (hj'.trans_le hle)] at hget
      rw [hget, hdown, getElem?_append_left, getElem?_drop, hfirst,
        Mem.getElem?_bytes _ _ (by rw [clientMessageSize, masterMessageSize]; omega)]
      · refine congrArg some (firstReply_zero buf' e hlt ?_ ?_)
        · rw [clientMessageSize]
          omega
        · rw [clientMessageSize, maxMessageLength]
          omega
      · rw [length_drop, hfirst, Mem.length_bytes, clientMessageSize, masterMessageSize]
        omega
    exact hmarked.2 ⟨hzero 0 (by decide), hzero 4 (by decide)⟩

theorem not_framed (hslaves : slaves.length < 2 ^ 32) {op : LinkOp} (hv : l.Valid op)
    (hw : ¬ l.Whole op) : ¬ Framed slaves (l.step slaves op) := by
  cases op with
  | masterRecv buf n => exact h.not_framed_masterRecv buf hv.2.1 hw
  | clientRecv buf vars n => exact h.not_framed_clientRecv hslaves buf vars hv.2.2.1 hv.2.2.2 hw
  | connect _ | call _ _ | work _ _ | close => exact absurd trivial hw

theorem always_framed_iff (hslaves : slaves.length < 2 ^ 32) {ops : List LinkOp}
    (hv : Each (Link.step slaves) Link.Valid l ops) :
    Always (Link.step slaves) (Framed slaves) l ops ↔ Each (Link.step slaves) Link.Whole l ops :=
  always_iff_each (fun _ h => h.framed) (fun _ _ h hv hw => h.step hslaves hv hw)
    (fun _ _ h hv hw => h.not_framed hslaves hv hw) h hv

end

end StreamInv

/-! ## Runs -/

/-- For every number of slaves and every run of a client and the master, with any requests and any
way in which `recv` cuts the streams : the tasks are the requests, and each `recv` of the client
yields the beginning of the next message, in every state of the run, if and only if every `recv` of
the master returns a whole message, and the client makes no `recv` but one, which returns all of its
`struct rdfs_message`. -/
theorem framed_iff {slaves : List SlaveEntry} (hslaves : slaves.length < 2 ^ 32)
    {ops : List LinkOp} (hv : Each (Link.step slaves) Link.Valid Link.start ops) :
    Always (Link.step slaves) (Framed slaves) Link.start ops ↔
      Each (Link.step slaves) Link.Whole Link.start ops :=
  StreamInv.start.always_framed_iff hslaves hv

/-- The slave at 192.168.0.3. -/
def oneSlave : List SlaveEntry := [⟨0, 0x0300a8c0, 18518⟩]

/-- A client connects and is told of one slave. -/
def discovery : List LinkOp :=
  [.connect (fun _ => 0), .masterRecv (fun _ => 0) 1032, .work (fun _ => 0) ⟨0, 0, none⟩,
    .clientRecv (fun _ => 0) (0, ⟨0, 0, 0⟩) 1032]

theorem framed_iff_discovery : Always (Link.step oneSlave) (Framed oneSlave) Link.start discovery :=
  (framed_iff (by decide) (by decide +kernel)).2 (by decide +kernel)

/-- Then the client opens a file. -/
def discoveryOpen : List LinkOp :=
  discovery ++ [.call (fun _ => 0) (.openFile [47, 97]), .masterRecv (fun _ => 0) 1032,
    .work (fun _ => 0) ⟨1, 0, none⟩, .clientRecv (fun _ => 0) (0, ⟨0, 0, 0⟩) 1032]

/-- What the client takes for the reply is the rest of the message about the slave. -/
theorem discoveryOpen_not_framed : Each (Link.step oneSlave) Link.Valid Link.start discoveryOpen ∧
      ¬ Always (Link.step oneSlave) (Framed oneSlave) Link.start discoveryOpen := by
  have hv : Each (Link.step oneSlave) Link.Valid Link.start discoveryOpen := by decide +kernel
  refine ⟨hv, fun h => ?_⟩
  exact absurd ((StreamInv.start.always_framed_iff (by decide) hv).1 h) (by decide +kernel)

end Rdfs
