import Rdfs.Messages

/-!
# Handshakes

Two programs that are to reach each other by RDMA first exchange their contexts as texts. A slave
registers with the master : it prints its context with the number of its blocks
(`rdfs_sock_send_info`), the master scans it by the type of the message and answers with its own.
What arrives are the values that were sent, for all values (`register_spec`).

A client connects to a slave in the same way, but the two sides do not fit together. The client
scans a message that it has just cleared instead of printing to it, and does not know the type of
the slave's message. So the exchange changes nothing on either side, in whatever order and pieces
the messages arrive, and the contexts agree afterwards if and only if they agreed before
(`ConnectRun.agree_iff`).
-/

namespace Rdfs

open List Option

/-! ## Contexts -/

/-- One side of a connection, as `dma_addr`, `rkey`, `qpn`, `psn` and `lid` of its own context, and
as `rem_addr`, `rem_rkey`, `rem_qpn`, `rem_psn` and `rem_lid` of the other's. -/
structure Endpoint where
  dmaAddr : BitVec 64
  rkey : BitVec 32
  qpn : BitVec 32
  psn : BitVec 32
  lid : BitVec 32
deriving DecidableEq, Repr

/-- `struct rdfs_context` of a slave. -/
structure SlaveContext where
  loc : Endpoint
  rem : Endpoint
  blockNums : BitVec 64
deriving DecidableEq, Repr

/-- `struct rdfs_context` of the master. -/
structure MasterContext where
  loc : Endpoint
  rem : Endpoint
  remBlockNums : BitVec 64
deriving DecidableEq, Repr

/-- `struct slave_context` of a client; `rem_addr` is `rem_vaddr` there. -/
structure ClientContext where
  loc : Endpoint
  rem : Endpoint
  remBlockNums : BitVec 32
deriving DecidableEq, Repr

/-- A variable once `sscanf` has stored its `i`-th number there. -/
def storeWord {w : ℕ} (args : List Arg) (i : ℕ) (old : BitVec w) : BitVec w :=
  match args[i]? with
  | some (.word n) => BitVec.ofNat w n
  | _ => old

/-- The variables of an endpoint once `sscanf` has stored the first five numbers there. -/
def Endpoint.scan (e : Endpoint) (args : List Arg) : Endpoint where
  dmaAddr := storeWord args 0 e.dmaAddr
  rkey := storeWord args 1 e.rkey
  qpn := storeWord args 2 e.qpn
  psn := storeWord args 3 e.psn
  lid := storeWord args 4 e.lid

/-- The arguments of `sprintf` for an endpoint. -/
def Endpoint.args (e : Endpoint) : List Arg :=
  [.word e.dmaAddr.toNat, .word e.rkey.toNat, .word e.qpn.toNat, .word e.psn.toNat,
    .word e.lid.toNat]

/-- `"%016Lx:%u:%x:%x:"` and a conversion for `lid`. -/
def endpointFormat (lid : Conv) : List Item :=
  [.num .padLx, .lit colon, .num .u, .lit colon, .num .x, .lit colon, .num .x, .lit colon,
    .num lid]

/-- `":%lx"`. -/
def blockNumsFormat : List Item := [.lit colon, .num .lx]

/-! ## The code -/

/-- `MASTER_CTX_INFO`. -/
def masterCtxInfo : ℕ := 100

/-- `SLAVE_CTX_TO_MASTER_INFO`. -/
def slaveCtxToMasterInfo : ℕ := 200

/-- `SLAVE_CTX_TO_CLIENT_INFO` of the master. -/
def slaveCtxToClientInfo : ℕ := 300

/-- `CLIENT_CTX_INFO`. -/
def clientCtxInfo : ℕ := 400

/-- `CLIENT_CTX_INFO_TO_SLAVE`. -/
def clientCtxInfoToSlave : ℕ := 2

/-- `CLIENT_SERACH_SLAVE_INFO`. -/
def clientSerachSlaveInfo : ℕ := 3

/-- `SLAVE_CTX_TO_CLIENT` of a client. -/
def slaveCtxToClient : ℕ := 6

/-- `rdfs_sock_send_info` of a slave : the bytes it sends. The local `message` lies in `buf`. -/
def rdfsSockSendInfo (ctx : SlaveContext) (buf : Mem) : List UInt8 :=
  let m := setType (clearData buf maxMessageLength) slaveCtxToMasterInfo
  let m := printData m (sprintf (endpointFormat .x ++ blockNumsFormat)
    (ctx.loc.args ++ [.word ctx.blockNums.toNat]))
  m.bytes slaveMessageSize 0

/-- `rdfs_sock_get_info` of a slave that receives `bs`. -/
def rdfsSockGetInfo (ctx : SlaveContext) (buf : Mem) (bs : List UInt8) : SlaveContext :=
  let m := recvInto (clearData buf maxMessageLength) bs
  { ctx with
    rem := ctx.rem.scan (sscanf .kernel (endpointFormat .x) (mText m maxMessageLength)) }

/-- `rdfs_send_message` of the master : the bytes it sends. `SLAVE_CTX_TO_MASTER_INFO` falls through
to the next case. -/
def rdfsSendMessage (ctx : MasterContext) (buf : Mem) (type : ℕ) : List UInt8 :=
  let m := setType (clearData buf maxMessageLength) type
  let m := if type = slaveCtxToMasterInfo then
      printData m (sprintf (endpointFormat .lx ++ blockNumsFormat)
        (ctx.loc.args ++ [.word ctx.remBlockNums.toNat]))
    else m
  let m := if type = masterCtxInfo ∨ type = slaveCtxToMasterInfo ∨ type = slaveCtxToClientInfo then
      printData m (sprintf (endpointFormat .x) ctx.loc.args)
    else m
  m.bytes masterMessageSize 0

/-- `rdfs_recv_message` of the master that receives `bs`. In the first case `%lx` stores eight bytes
at the four of `rem_lid`, the others are those of `rem_block_nums`; in the last case there is no
variable for the sixth number. -/
def rdfsRecvMessage (ctx : MasterContext) (buf : Mem) (bs : List UInt8) : MasterContext :=
  let m := recvInto (clearData buf maxMessageLength) bs
  let text := mText m maxMessageLength
  if mType m = masterCtxInfo then
    let args := sscanf .kernel (endpointFormat .lx) text
    let wide : BitVec 64 := storeWord args 4 (ctx.remBlockNums <<< 32)
    { ctx with
      rem := ctx.rem.scan args
      remBlockNums := ctx.remBlockNums >>> 32 <<< 32 ||| wide >>> 32 }
  else if mType m = slaveCtxToMasterInfo then
    let args := sscanf .kernel (endpointFormat .x ++ blockNumsFormat) text
    { ctx with rem := ctx.rem.scan args, remBlockNums := storeWord args 5 ctx.remBlockNums }
  else if mType m = clientCtxInfo then
    { ctx with rem := ctx.rem.scan (sscanf .kernel (endpointFormat .x ++ blockNumsFormat) text) }
  else ctx

/-! ## Registration of a slave -/

variable {fmt : List Item} {args : List Arg} {client : ClientContext} {slave : SlaveContext}

theorem Endpoint.readable (e : Endpoint)
    (hfmt : ∀ i ∈ fmt.head?, ∃ b, i = .lit b ∧ digitValue b = 16 ∧ isX b = false)
    (h : Readable fmt args) : Readable (endpointFormat .x ++ fmt) (e.args ++ args) := by
  have hcolon : digitValue colon = 16 ∧ isX colon = false := by decide
  simp only [endpointFormat, Endpoint.args, cons_append, Readable,
    head?_cons, mem_def, some.injEq, forall_eq', Item.lit.injEq, exists_eq_left']
  exact ⟨Conv.ok_padLx, e.dmaAddr.isLt, hcolon, Conv.ok_u, e.rkey.isLt, hcolon, Conv.ok_x,
    e.qpn.isLt, hcolon, Conv.ok_x, e.psn.isLt, hcolon, Conv.ok_x, e.lid.isLt, hfmt, h⟩

theorem Endpoint.readable_args (e : Endpoint) : Readable (endpointFormat .x) e.args := by
  have hnil : Readable ([] : List Item) ([] : List Arg) := trivial
  simpa only [append_nil] using e.readable (by simp) hnil

theorem SlaveContext.readable (ctx : SlaveContext) : Readable (endpointFormat .x ++ blockNumsFormat)
      (ctx.loc.args ++ [.word ctx.blockNums.toNat]) := by
  refine ctx.loc.readable (fun i hi => ?_) ⟨Conv.ok_lx, ctx.blockNums.isLt, ?_, trivial⟩
  · obtain rfl := some_inj.1 hi
    exact ⟨colon, rfl, by decide⟩
  · rintro i hi
    cases hi

theorem Endpoint.scan_args (e e' : Endpoint) (args : List Arg) : e'.scan (e.args ++ args) = e := by
  simp [Endpoint.scan, Endpoint.args, storeWord]

/-- The type and the text of a message that is sent whole. -/
theorem recv_printData (m buf : Mem) {n size len : ℕ} (hn : 4 + len ≤ n) (hsize : 4 + len ≤ size)
    (h : Readable fmt args) (hlit : .lit 0 ∉ fmt) (hwidth : ∀ i ∈ fmt, i.width ≤ 64)
    (hlen : 65 * fmt.length < len) (lib : Libc) :
    mType (recvInto buf (((printData m (sprintf fmt args)).bytes n 0).take size)) = mType m ∧
    sscanf lib fmt
      (mText (recvInto buf (((printData m (sprintf fmt args)).bytes n 0).take size)) len) =
        args := by
  obtain ⟨htype, htext⟩ := recvInto_whole (printData m (sprintf fmt args)) buf hn hsize
  have hstops : Stops [] := by
    rintro b hb
    cases hb
  rw [htype, htext, mType_printData,
    mText_printData m (h.zero_not_mem hlit) ((h.length_sprintf_le hwidth).trans_lt hlen)]
  exact ⟨rfl, by simpa only [append_nil] using sscanf_sprintf lib hstops h⟩

/-- The master has the slave's context once it has received its message. -/
theorem rdfsRecvMessage_slave (slave : SlaveContext) (ctx : MasterContext) (buf buf' : Mem) :
    rdfsRecvMessage ctx buf' ((rdfsSockSendInfo slave buf).take masterMessageSize) =
      { ctx with rem := slave.loc, remBlockNums := slave.blockNums } := by
  obtain ⟨htype, hscan⟩ := recv_printData
    (setType (clearData buf maxMessageLength) slaveCtxToMasterInfo)
    (clearData buf' maxMessageLength) (by decide : 4 + maxMessageLength ≤ slaveMessageSize)
    (by decide : _ ≤ masterMessageSize) slave.readable (by decide) (by decide) (by decide) .kernel
  rw [mType_setType _ (by decide)] at htype
  simp only [rdfsRecvMessage, rdfsSockSendInfo, htype, hscan, Endpoint.scan_args]
  simp [slaveCtxToMasterInfo, masterCtxInfo, storeWord, Endpoint.args]

/-- The slave has the master's context once it has received the answer. -/
theorem rdfsSockGetInfo_master (master : MasterContext) (ctx : SlaveContext) (buf buf' : Mem) :
    rdfsSockGetInfo ctx buf' ((rdfsSendMessage master buf masterCtxInfo).take slaveMessageSize) =
      { ctx with rem := master.loc } := by
  obtain ⟨-, hscan⟩ := recv_printData (setType (clearData buf maxMessageLength) masterCtxInfo)
    (clearData buf' maxMessageLength) (by decide : 4 + maxMessageLength ≤ masterMessageSize)
    (by decide : _ ≤ slaveMessageSize) master.loc.readable_args (by decide) (by decide) (by decide)
    .kernel
  have hne : ¬masterCtxInfo = slaveCtxToMasterInfo := by decide
  have hscan' := Endpoint.scan_args master.loc ctx.rem []
  rw [append_nil] at hscan'
  simp only [rdfsSockGetInfo, rdfsSendMessage, hne, if_false, true_or, if_true, hscan, hscan']

/-- `rdfs_client_handshake` of a slave and the part of `rdfs_process_register` that answers it, with
whole messages; the local messages lie in the buffers `bufs`. -/
def register (slave : SlaveContext) (master : MasterContext) (bufs : Fin 4 → Mem) :
    SlaveContext × MasterContext :=
  let master := rdfsRecvMessage master (bufs 1)
    ((rdfsSockSendInfo slave (bufs 0)).take masterMessageSize)
  (rdfsSockGetInfo slave (bufs 3)
    ((rdfsSendMessage master (bufs 2) masterCtxInfo).take slaveMessageSize), master)

/-- After the registration each side has the values of the other, and the master the number of the
slave's blocks. -/
theorem register_spec (slave : SlaveContext) (master : MasterContext) (bufs : Fin 4 → Mem) :
    (register slave master bufs).2.rem = slave.loc ∧
    (register slave master bufs).2.remBlockNums = slave.blockNums ∧
    (register slave master bufs).1.rem = master.loc := by
  simp only [register, rdfsRecvMessage_slave, rdfsSockGetInfo_master, and_self]

/-! ## Connection of a client -/

/-- `rdfs_send_message` of a client : its context afterwards and the bytes it sends. For a slave it
scans the message it has just cleared; `%lx` stores eight bytes at the four of `lid`, the others are
those of `rem_qpn`. -/
def clientSendMessage (ctx : ClientContext) (buf : Mem) (type : ℕ) : ClientContext × List UInt8 :=
  let m := setType (clearData buf clientMessageLength) type
  let args := sscanf .user (endpointFormat .lx) (mText m clientMessageLength)
  let wide : BitVec 64 := storeWord args 4 (ctx.rem.qpn.setWidth 64 <<< 32)
  (if type = clientCtxInfoToSlave then
      { ctx with
        loc := ctx.loc.scan args
        rem := { ctx.rem with qpn := (wide >>> 32).setWidth 32 } }
    else ctx,
    m.bytes clientMessageSize 0)

/-- `"%d:%d:%u:%d"`, a slave's place in the list of slaves, its number, its address and its port. -/
def slaveInfoFormat : List Item :=
  [.num .d, .lit colon, .num .d, .lit colon, .num .u, .lit colon, .num .d]

/-- `rdfs_recv_message` of a client that receives `bs` : its context afterwards, and what it scans
for a slave to connect to. -/
def clientRecvMessage (ctx : ClientContext) (buf : Mem) (bs : List UInt8) :
    ClientContext × Option (List Arg) :=
  let m := recvInto (clearData buf clientMessageLength) bs
  let text := mText m clientMessageLength
  if mType m = slaveCtxToClient then
    let args := sscanf .user (endpointFormat .x ++ blockNumsFormat) text
    ({ ctx with rem := ctx.rem.scan args, remBlockNums := storeWord args 5 ctx.remBlockNums }, none)
  else if mType m = clientSerachSlaveInfo then (ctx, some (sscanf .user slaveInfoFormat text))
  else (ctx, none)

/-- How far a side is : both send before they receive. -/
inductive Phase
  | sending | receiving | done
deriving DecidableEq, Repr

/-- A client in `rdfs_init_slave_connect` and a slave in `rdfs_client_handshake`, with the bytes
that are on their way. -/
structure Connect where
  client : ClientContext
  slave : SlaveContext
  toSlave : List UInt8
  toClient : List UInt8
  clientPhase : Phase
  slavePhase : Phase

/-- Before the exchange. -/
def Connect.start (client : ClientContext) (slave : SlaveContext) : Connect :=
  ⟨client, slave, [], [], .sending, .sending⟩

/-- One side sends its message, or receives some of the bytes that have been sent. -/
inductive ConnectStep : Connect → Connect → Prop
  | clientSend (c : Connect) (buf : Mem) (h : c.clientPhase = .sending) :
      ConnectStep c { c with
        client := (clientSendMessage c.client buf clientCtxInfoToSlave).1
        toSlave := c.toSlave ++ (clientSendMessage c.client buf clientCtxInfoToSlave).2
        clientPhase := .receiving }
  | slaveSend (c : Connect) (buf : Mem) (h : c.slavePhase = .sending) :
      ConnectStep c { c with
        toClient := c.toClient ++ rdfsSockSendInfo c.slave buf
        slavePhase := .receiving }
  | clientRecv (c : Connect) (buf : Mem) (n : ℕ) (ctx : ClientContext)
      (h : c.clientPhase = .receiving) (hpos : 0 < n) (hn : n ≤ c.toClient.length)
      (hsize : n ≤ clientMessageSize)
      (hr : clientRecvMessage c.client buf (c.toClient.take n) = (ctx, none)) :
      ConnectStep c { c with
        client := ctx
        toClient := c.toClient.drop n
        clientPhase := .done }
  | slaveRecv (c : Connect) (buf : Mem) (n : ℕ)
      (h : c.slavePhase = .receiving) (hpos : 0 < n) (hn : n ≤ c.toSlave.length)
      (hsize : n ≤ slaveMessageSize) :
      ConnectStep c { c with
        slave := rdfsSockGetInfo c.slave buf (c.toSlave.take n)
        toSlave := c.toSlave.drop n
        slavePhase := .done }

/-- States of an exchange. -/
def ConnectRun (client : ClientContext) (slave : SlaveContext) : Connect → Prop :=
  Relation.ReflTransGen ConnectStep (Connect.start client slave)

/-- Each side has the values of the other, and the client the number of the slave's blocks. -/
def Agree (client : ClientContext) (slave : SlaveContext) : Prop :=
  client.rem = slave.loc ∧ client.remBlockNums.toInt = slave.blockNums.toNat ∧
    slave.rem = client.loc

instance (client : ClientContext) (slave : SlaveContext) : Decidable (Agree client slave) :=
  inferInstanceAs (Decidable (_ ∧ _ ∧ _))

theorem Endpoint.scan_nil (e : Endpoint) : e.scan [] = e := rfl

theorem sscanf_empty (lib : Libc) (c : Conv) (fmt : List Item) :
    sscanf lib (.num c :: fmt) [] = [] := by
  simp [sscanf, scanNum, scanSign, skipRadix, readDigits]

/-- The client sends its context as it is, and an empty text. -/
theorem clientSendMessage_toSlave (ctx : ClientContext) (buf : Mem) :
    clientSendMessage ctx buf clientCtxInfoToSlave =
      (ctx, (setType (clearData buf clientMessageLength) clientCtxInfoToSlave).bytes
        clientMessageSize 0) := by
  have htext : mText (setType (clearData buf clientMessageLength) clientCtxInfoToSlave)
      clientMessageLength = [] := by
    rw [mText_setType, mText_clearData buf (by decide)]
  have hargs : sscanf .user (endpointFormat .lx) [] = [] := sscanf_empty _ _ _
  have hqpn : ((storeWord [] 4 (ctx.rem.qpn.setWidth 64 <<< 32) : BitVec 64) >>> 32).setWidth 32 =
      ctx.rem.qpn := by
    refine BitVec.eq_of_toNat_eq ?_
    simp only [storeWord, getElem?_nil, BitVec.toNat_setWidth, BitVec.toNat_ushiftRight,
      BitVec.toNat_shiftLeft]
    omega
  simp only [clientSendMessage, htext, hargs, if_true, Endpoint.scan_nil, hqpn]

/-- Whatever part of the client's message a slave receives, there is no text in it. -/
theorem rdfsSockGetInfo_client (ctx : SlaveContext) (client : ClientContext) (buf buf' : Mem)
    (n : ℕ) : rdfsSockGetInfo ctx buf'
      ((clientSendMessage client buf clientCtxInfoToSlave).2.take n) = ctx := by
  have h0 : recvInto (clearData buf' maxMessageLength)
      ((clientSendMessage client buf clientCtxInfoToSlave).2.take n) 4 = 0 := by
    rw [clientSendMessage_toSlave, Mem.bytes_take, recvInto, Mem.blit, if_pos (by decide)]
    by_cases hn : 4 < min n clientMessageSize
    · rw [Mem.getElem?_bytes _ _ hn, getD_some]
      rfl
    · rw [getElem?_eq_none (by rw [Mem.length_bytes]; omega), getD_none]
      rfl
  have htext : mText (recvInto (clearData buf' maxMessageLength)
      ((clientSendMessage client buf clientCtxInfoToSlave).2.take n)) maxMessageLength = [] :=
    Mem.cString_of_zero _ h0
  have hargs : sscanf .kernel (endpointFormat .x) [] = [] := sscanf_empty _ _ _
  simp only [rdfsSockGetInfo, htext, hargs, Endpoint.scan_nil]

/-- Whatever part of the slave's message a client receives, its type is unknown to it. -/
theorem clientRecvMessage_slave (ctx : ClientContext) (slave : SlaveContext) (buf buf' : Mem)
    {n : ℕ} (hn : 0 < n) :
    clientRecvMessage ctx buf' ((rdfsSockSendInfo slave buf).take n) = (ctx, none) := by
  generalize hm : recvInto (clearData buf' clientMessageLength) ((rdfsSockSendInfo slave buf).take
    n) = m
  have h0 : m 0 = 200 := by
    have hmin : 0 < min n slaveMessageSize := Nat.lt_min.2 ⟨hn, by decide⟩
    rw [← hm, rdfsSockSendInfo, Mem.bytes_take, recvInto, Mem.blit, if_pos le_rfl,
      Mem.getElem?_bytes _ _ hmin, getD_some]
    rfl
  have htype : mType m % 256 = 200 := by
    rw [mType, Mem.load, h0, show (200 : UInt8).toNat = 200 from rfl]
    omega
  have h6 : mType m ≠ slaveCtxToClient := fun h => by rw [h] at htype; cases htype
  have h3 : mType m ≠ clientSerachSlaveInfo := fun h => by rw [h] at htype; cases htype
  simp only [clientRecvMessage, hm, h6, h3, if_false]

/-- Nothing has changed, and what a side has still to receive is the other side's message. -/
structure ConnectInv (client : ClientContext) (slave : SlaveContext) (c : Connect) : Prop where
  client_eq : c.client = client
  slave_eq : c.slave = slave
  toSlave : c.slavePhase ≠ .done → (c.clientPhase = .sending ∧ c.toSlave = []) ∨
    c.clientPhase ≠ .sending ∧
      ∃ buf, c.toSlave = (clientSendMessage client buf clientCtxInfoToSlave).2
  toClient : c.clientPhase ≠ .done → (c.slavePhase = .sending ∧ c.toClient = []) ∨
    c.slavePhase ≠ .sending ∧ ∃ buf, c.toClient = rdfsSockSendInfo slave buf

variable {c : Connect}

theorem ConnectInv.step {c' : Connect} (h : ConnectInv client slave c) (hs : ConnectStep c c') :
    ConnectInv client slave c' := by
  cases hs with
  | clientSend buf hphase =>
    refine ⟨?_, h.slave_eq, fun hd => Or.inr ⟨nofun, buf, ?_⟩, fun hd => ?_⟩
    · rw [clientSendMessage_toSlave]
      exact h.client_eq
    · rcases h.toSlave hd with ⟨-, hnil⟩ | ⟨hne, -⟩
      · rw [hnil, h.client_eq, nil_append]
      · exact absurd hphase hne
    · exact h.toClient (by rw [hphase]; decide)
  | slaveSend buf hphase =>
    refine ⟨h.client_eq, h.slave_eq, fun hd => ?_, fun hd => Or.inr ⟨nofun, buf, ?_⟩⟩
    · exact h.toSlave (by rw [hphase]; decide)
    · rcases h.toClient hd with ⟨-, hnil⟩ | ⟨hne, -⟩
      · rw [hnil, h.slave_eq, nil_append]
      · exact absurd hphase hne
  | clientRecv buf n ctx hphase hpos hn hsize hr =>
    refine ⟨?_, h.slave_eq, fun hd => ?_, fun hd => absurd rfl hd⟩
    · rcases h.toClient (by rw [hphase]; decide) with ⟨-, hnil⟩ | ⟨-, buf', hbytes⟩
      · rw [hnil, length_nil] at hn
        omega
      · rw [hbytes, clientRecvMessage_slave _ _ _ _ hpos] at hr
        rw [← h.client_eq]
        exact (Prod.mk.inj hr).1.symm
    · rcases h.toSlave hd with ⟨hne, -⟩ | ⟨-, hbytes⟩
      · rw [hphase] at hne
        cases hne
      · exact Or.inr ⟨nofun, hbytes⟩
  | slaveRecv buf n hphase hpos hn hsize =>
    refine ⟨h.client_eq, ?_, fun hd => absurd rfl hd, fun hd => ?_⟩
    · rcases h.toSlave (by rw [hphase]; decide) with ⟨-, hnil⟩ | ⟨-, buf', hbytes⟩
      · rw [hnil, length_nil] at hn
        omega
      · rw [hbytes, rdfsSockGetInfo_client]
        exact h.slave_eq
    · rcases h.toClient hd with ⟨hne, -⟩ | ⟨-, hbytes⟩
      · rw [hphase] at hne
        cases hne
      · exact Or.inr ⟨nofun, hbytes⟩

theorem ConnectRun.inv (h : ConnectRun client slave c) : ConnectInv client slave c := by
  induction h with
  | refl => exact ⟨rfl, rfl, fun _ => Or.inl ⟨rfl, rfl⟩, fun _ => Or.inl ⟨rfl, rfl⟩⟩
  | tail _ hs ih => exact ih.step hs

/-- A client that has sent its message can receive once the slave has sent. -/
theorem ConnectRun.client_receives (h : ConnectRun client slave c) (hc : c.clientPhase = .receiving)
    (hs : c.slavePhase ≠ .sending) :
    ∃ c', ConnectRun client slave c' ∧ c'.clientPhase = .done ∧ c'.slavePhase = c.slavePhase := by
  rcases h.inv.toClient (by rw [hc]; nofun) with ⟨hsend, -⟩ | ⟨-, buf, hbytes⟩
  · exact absurd hsend hs
  · have hlen : 1 ≤ c.toClient.length := by
      rw [hbytes, rdfsSockSendInfo, Mem.length_bytes]
      decide
    have hr : clientRecvMessage c.client buf (c.toClient.take 1) = (c.client, none) := by
      rw [hbytes, clientRecvMessage_slave _ _ _ _ Nat.one_pos]
    exact ⟨_, h.tail (.clientRecv c buf 1 _ hc Nat.one_pos hlen (by decide) hr), rfl, rfl⟩

/-- A slave that has sent its message can receive once the client has sent. -/
theorem ConnectRun.slave_receives (h : ConnectRun client slave c) (hs : c.slavePhase = .receiving)
    (hc : c.clientPhase ≠ .sending) :
    ∃ c', ConnectRun client slave c' ∧ c'.slavePhase = .done ∧ c'.clientPhase = c.clientPhase := by
  rcases h.inv.toSlave (by rw [hs]; nofun) with ⟨hsend, -⟩ | ⟨-, buf, hbytes⟩
  · exact absurd hsend hc
  · have hlen : 1 ≤ c.toSlave.length := by
      rw [hbytes, clientSendMessage_toSlave, Mem.length_bytes]
      decide
    exact ⟨_, h.tail (.slaveRecv c buf 1 hs Nat.one_pos hlen (by decide)), rfl, rfl⟩

/-- The exchange can be completed, whatever the contexts are. -/
theorem connect_completes (client : ClientContext) (slave : SlaveContext) :
    ∃ c, ConnectRun client slave c ∧ c.clientPhase = .done ∧ c.slavePhase = .done := by
  have h0 : ConnectRun client slave (Connect.start client slave) := .refl
  have h1 := h0.tail (.clientSend _ (fun _ => 0) rfl)
  have h2 : ConnectRun client slave _ := h1.tail (.slaveSend _ (fun _ => 0) rfl)
  obtain ⟨c, h3, hc, hs⟩ := h2.client_receives rfl nofun
  obtain ⟨c', h4, hs', hc'⟩ := h3.slave_receives hs (by rw [hc]; nofun)
  exact ⟨c', h4, hc'.trans hc, hs'⟩

/-- The sides agree after the exchange if and only if they agreed before it. -/
theorem ConnectRun.agree_iff {client : ClientContext} {slave : SlaveContext} {c : Connect}
    (h : ConnectRun client slave c) : Agree c.client c.slave ↔ Agree client slave := by
  rw [h.inv.client_eq, h.inv.slave_eq]

/-- The endpoint of a client. -/
def clientEnd : Endpoint := ⟨0x1000, 3, 5, 7, 9⟩

/-- The endpoint of a slave. -/
def slaveEnd : Endpoint := ⟨0x2000, 4, 6, 8, 10⟩

/-- Sides that have each other's values from the start, and the number of blocks, still have them.
-/
theorem ConnectRun.agree_iff_known :
    ∃ c, ConnectRun ⟨clientEnd, slaveEnd, 128⟩ ⟨slaveEnd, clientEnd, 128⟩ c ∧
      c.clientPhase = .done ∧ c.slavePhase = .done ∧ Agree c.client c.slave := by
  obtain ⟨c, hrun, hclient, hslave⟩ := connect_completes ⟨clientEnd, slaveEnd, 128⟩
    ⟨slaveEnd, clientEnd, 128⟩
  exact ⟨c, hrun, hclient, hslave, (ConnectRun.agree_iff hrun).2 (by decide)⟩

/-- An endpoint of zeros. -/
def zeroEndpoint : Endpoint := ⟨0, 0, 0, 0, 0⟩

/-- A slave with the key 1 : the client has the key 0 after the exchange. -/
theorem connect_loses_rkey : ∃ c, ConnectRun ⟨zeroEndpoint, zeroEndpoint, 0⟩
        ⟨{ zeroEndpoint with rkey := 1 }, zeroEndpoint, 0⟩ c ∧
      c.clientPhase = .done ∧ c.slavePhase = .done ∧ c.slave.loc.rkey = 1 ∧
      c.client.rem.rkey = 0 ∧ ¬Agree c.client c.slave := by
  obtain ⟨c, hrun, hclient, hslave⟩ := connect_completes ⟨zeroEndpoint, zeroEndpoint, 0⟩
    ⟨{ zeroEndpoint with rkey := 1 }, zeroEndpoint, 0⟩
  refine ⟨c, hrun, hclient, hslave, ?_⟩
  rw [hrun.inv.client_eq, hrun.inv.slave_eq]
  decide

end Rdfs
