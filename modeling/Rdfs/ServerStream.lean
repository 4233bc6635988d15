import Mathlib.Data.List.SplitLengths
import Mathlib.Data.List.Sort
import Rdfs.Messages

/-!
# Requests on a stream

A client sends its requests to the server in user space as messages of 1032 bytes on a stream. The
server calls `recv` for the 1028 bytes of its own `struct rdfs_message`, executes what it got if
that is all of them, and otherwise throws it away (`rdfs_recv_data`). So it executes the pieces of
1028 bytes, wherever they lie in the stream (`serve_executed`), and of a message that arrives whole
four bytes are left over.

`requests_iff` says for which ways of cutting the stream the server executes the requests of every
sequence of messages : those where the pieces of 1028 bytes are the beginnings of the messages.
-/

namespace Rdfs

open List

/-! ## The code -/

/-- The size of `data` of the server's `struct rdfs_message`. -/
def networkBuffLength : ℕ := 1024

/-- The size of the server's `struct rdfs_message`. -/
def serverMessageSize : ℕ := 1028

/-- A connection of the server : its message, the requests executed, and the replies sent. The rest
of the server is in `os`. -/
structure Served (σ : Type*) where
  message : Mem
  os : σ
  executed : List (List UInt8)
  replies : List (List UInt8)

/-- A connection that has been accepted. -/
def Served.start {σ : Type*} (message : Mem) (os : σ) : Served σ := ⟨message, os, [], []⟩

section code

variable {σ : Type*} (process : Mem → σ → Mem × σ)

/-- The message as `rdfs_event_set` and `rdfs_send_data` leave it; the type is -1. -/
def resetMessage (m : Mem) : Mem := setType (clearData m networkBuffLength) 0xffffffff

/-- `rdfs_recv_data` of a connection that receives `bs`, which is not empty, and the
`rdfs_send_data` that follows an executed request; `process` is `rdfs_process_request`. -/
def rdfsRecvData (c : Served σ) (bs : List UInt8) : Served σ :=
  let m := recvInto c.message bs
  if bs.length = serverMessageSize then
    let r := process m c.os
    let reply := setType r.1 0
    { message := resetMessage reply
      os := r.2
      executed := c.executed ++ [m.bytes serverMessageSize 0]
      replies := c.replies ++ [reply.bytes serverMessageSize 0] }
  else { c with message := resetMessage m }

/-- The server receives one piece after another. -/
def serve (c : Served σ) (pieces : List (List UInt8)) : Served σ :=
  pieces.foldl (rdfsRecvData process) c

end code

/-- A call of the client library. -/
inductive ClientCall
  | openFile (flags : BitVec 32) (path : Text)
  | closeFile (fd : BitVec 32)
deriving DecidableEq, Repr

/-- `RDFS_CLIENT_OPEN`. -/
def rdfsClientOpen : ℕ := 0

/-- `RDFS_CLIENT_CLOSE`. -/
def rdfsClientClose : ℕ := 1

/-- `"%d:%d:%s"`. -/
def openFormat : List Item := [.num .d, .lit colon, .num .d, .lit colon, .str]

/-- The message that `rdfsOpenFile` and `rdfsCloseFile` send; it lies in `buf` and is not cleared.
The mode is `0644`. -/
def ClientCall.message (buf : Mem) : ClientCall → List UInt8
  | .openFile flags path => (printData (setType buf rdfsClientOpen)
      (sprintf openFormat [.word flags.toNat, .word 420, .text path])).bytes clientMessageSize 0
  | .closeFile fd => (printData (setType buf rdfsClientClose)
      (sprintf [.num .d] [.word fd.toNat])).bytes clientMessageSize 0

/-- The part of a message that is the server's `struct rdfs_message`. -/
def request (message : List UInt8) : List UInt8 := message.take serverMessageSize

/-! ## What is executed -/

theorem recvInto_bytes (m : Mem) {bs : List UInt8} {n : ℕ} (h : bs.length = n) :
    (recvInto m bs).bytes n 0 = bs :=
  h ▸ Mem.bytes_blit m 0 bs

section executed

variable {σ : Type*} (process : Mem → σ → Mem × σ)

/-- One piece is executed if it is as long as the server's message. -/
theorem rdfsRecvData_executed (c : Served σ) (bs : List UInt8) :
    (rdfsRecvData process c bs).executed =
      c.executed ++ [bs].filter fun bs => bs.length = serverMessageSize := by
  by_cases h : bs.length = serverMessageSize
  · rw [rdfsRecvData, if_pos h, filter_cons_of_pos (by simpa using h), filter_nil]
    exact congrArg (fun b => c.executed ++ [b]) (recvInto_bytes c.message h)
  · rw [rdfsRecvData, if_neg h, filter_cons_of_neg (by simpa using h), filter_nil, append_nil]

/-- Every request that is executed is answered once. -/
theorem rdfsRecvData_replies {c : Served σ} (hc : c.replies.length = c.executed.length)
    (bs : List UInt8) : (rdfsRecvData process c bs).replies.length =
      (rdfsRecvData process c bs).executed.length := by
  rw [rdfsRecvData]
  split_ifs
  · simp only [length_append, hc, length_singleton]
  · exact hc

/-- The server executes the pieces that are as long as its message, and sends a reply for each. -/
theorem serve_executed :
    ∀ (pieces : List (List UInt8)) {c : Served σ}, c.replies.length = c.executed.length →
      (serve process c pieces).executed =
        c.executed ++ pieces.filter (fun bs => bs.length = serverMessageSize) ∧
      (serve process c pieces).replies.length = (serve process c pieces).executed.length
  | [], _, hc => ⟨(append_nil _).symm, hc⟩
  | bs :: pieces, c, hc => by
    obtain ⟨hexec, hreplies⟩ := serve_executed pieces (rdfsRecvData_replies process hc bs)
    refine ⟨?_, hreplies⟩
    have hserve : serve process c (bs :: pieces) =
        serve process (rdfsRecvData process c bs) pieces := rfl
    rw [hserve, hexec, rdfsRecvData_executed, append_assoc, ← filter_append, singleton_append]

theorem serve_start (message : Mem) (os : σ) (pieces : List (List UInt8)) :
    (serve process (Served.start message os) pieces).executed =
      pieces.filter (fun bs => bs.length = serverMessageSize) ∧
    (serve process (Served.start message os) pieces).replies.length =
      (pieces.filter fun bs => bs.length = serverMessageSize).length := by
  have hstart : (Served.start message os).replies.length =
    (Served.start message os).executed.length := rfl
  obtain ⟨hexec, hreplies⟩ := serve_executed process pieces hstart
  rw [hreplies, hexec]
  exact ⟨rfl, rfl⟩

end executed

/-! ## Where the pieces lie -/

/-- Where the pieces of 1028 bytes begin, in a stream that is cut from `o` on. -/
def fullOffsets (o : ℕ) : List ℕ → List ℕ
  | [] => []
  | l :: cut => if l = serverMessageSize then o :: fullOffsets (o + l) cut
    else fullOffsets (o + l) cut

/-- The pieces of 1028 bytes by where they begin. -/
theorem filter_splitLengths {α : Type*} (stream : List α) :
    ∀ (cut : List ℕ) (o : ℕ), o + cut.sum ≤ stream.length →
      (cut.splitLengths (stream.drop o)).filter (fun bs => bs.length = serverMessageSize) =
        (fullOffsets o cut).map fun i => (stream.drop i).take serverMessageSize
  | [], _, _ => rfl
  | l :: cut, o, h => by
    rw [sum_cons] at h
    have hlen : ((stream.drop o).take l).length = l := by
      rw [length_take, length_drop]
      omega
    have ih := filter_splitLengths stream cut (o + l) (by omega)
    rw [splitLengths_cons, drop_drop, fullOffsets]
    split_ifs with hl
    · rw [filter_cons_of_pos (by simpa [hlen] using hl), ih, map_cons, hl]
    · rw [filter_cons_of_neg (by simpa [hlen] using hl), ih]

/-- The pieces lie one behind another inside the stream. -/
theorem fullOffsets_bounds : ∀ (cut : List ℕ) (o : ℕ), (fullOffsets o cut).Pairwise (· < ·) ∧
      ∀ i ∈ fullOffsets o cut, o ≤ i ∧ i + serverMessageSize ≤ o + cut.sum
  | [], _ => ⟨List.Pairwise.nil, fun _ h => by cases h⟩
  | l :: cut, o => by
    obtain ⟨hpair, hmem⟩ := fullOffsets_bounds cut (o + l)
    rw [fullOffsets, sum_cons]
    split_ifs with hl
    · refine ⟨pairwise_cons.2 ⟨fun i hi => ?_, hpair⟩, fun i hi => ?_⟩
      · have := (hmem i hi).1
        rw [hl, serverMessageSize] at this
        omega
      · rcases mem_cons.1 hi with rfl | hi
        · omega
        · have := hmem i hi
          omega
    · refine ⟨hpair, fun i hi => ?_⟩
      have := hmem i hi
      omega

/-! ## Which cuts keep the requests -/

theorem length_flatten_messages :
    ∀ {messages : List (List UInt8)}, (∀ m ∈ messages, m.length = clientMessageSize) →
      messages.flatten.length = clientMessageSize * messages.length
  | [], _ => rfl
  | m :: messages, h => by
    rw [flatten_cons, length_append, h m mem_cons_self,
      length_flatten_messages fun m hm => h m (mem_cons_of_mem _ hm), length_cons,
      Nat.mul_succ, Nat.add_comm]

theorem drop_flatten_messages :
    ∀ (i : ℕ) {messages : List (List UInt8)}, (∀ m ∈ messages, m.length = clientMessageSize) →
      messages.flatten.drop (clientMessageSize * i) = (messages.drop i).flatten
  | 0, _, _ => rfl
  | _ + 1, [], _ => drop_nil
  | i + 1, m :: messages, h => by
    have hm := h m mem_cons_self
    rw [flatten_cons, drop_succ_cons,
      ← drop_flatten_messages i fun m hm => h m (mem_cons_of_mem _ hm), Nat.mul_succ,
      Nat.add_comm, ← drop_drop, ← hm, drop_left, hm]

/-- What lies at the beginnings of the messages are the requests. -/
theorem map_beginnings {messages : List (List UInt8)}
    (h : ∀ m ∈ messages, m.length = clientMessageSize) :
    ((List.range messages.length).map (clientMessageSize * ·)).map
      (fun i => (messages.flatten.drop i).take serverMessageSize) = messages.map request := by
  refine ext_getElem (by simp) fun i hi hi' => ?_
  have hlt : i < messages.length := by simpa using hi'
  have hle : serverMessageSize ≤ messages[i].length := by
    rw [h _ (getElem_mem hlt)]
    decide
  simp only [getElem_map, getElem_range]
  rw [drop_flatten_messages i h, drop_eq_getElem_cons hlt, flatten_cons,
    take_append_of_le_length hle, request]

theorem eq_range_of_pairwise_lt {l : List ℕ} {n : ℕ} (hpair : l.Pairwise (· < ·))
    (hlt : ∀ i ∈ l, i < n) (hlen : l.length = n) : l = List.range n := by
  have hperm : l.Perm (List.range n) :=
    (subperm_of_subset (hpair.imp Nat.ne_of_lt) fun i hi =>
      mem_range.2 (hlt i hi)).perm_of_length_le (by simp [hlen])
  exact hperm.eq_of_pairwise' (hpair.imp Nat.le_of_lt) (pairwise_lt_range.imp Nat.le_of_lt)

/-- A request to close descriptor 0, in memory that held nothing but 255. -/
def closeZero : List UInt8 := (ClientCall.closeFile 0).message fun _ => 255

theorem length_closeZero : closeZero.length = clientMessageSize := Mem.length_bytes _ _ _

theorem closeZero_zero : closeZero[0]? = some 1 := by
  rw [closeZero, ClientCall.message, Mem.getElem?_bytes _ _ (by decide)]
  decide

/-- The 1 of the type is the only one. -/
theorem getElem?_closeZero {j : ℕ} (h : closeZero[j]? = some 1) : j = 0 := by
  have hj : j < clientMessageSize := by
    rw [← length_closeZero]
    exact (List.getElem?_eq_some_iff.1 h).1
  have hbyte : printData (setType (fun _ => 255) rdfsClientClose)
      (sprintf [.num .d] [.word 0]) j = 1 := by
    have h' := h
    rw [closeZero, ClientCall.message, Mem.getElem?_bytes _ _ hj, Nat.zero_add] at h'
    exact Option.some_inj.1 h'
  by_contra h0
  rcases Nat.lt_or_ge j 6 with hlt | hge
  · have hsmall : ∀ k < 6, k ≠ 0 → printData (setType (fun _ => 255) rdfsClientClose)
        (sprintf [.num .d] [.word 0]) k ≠ 1 := by decide
    exact hsmall j hlt h0 hbyte
  · have htext : sprintf [.num .d] [.word 0] = [48] := by decide
    rw [htext, printData, Mem.blit, if_pos (by omega),
      getElem?_eq_none (by simp only [length_append, length_singleton]; omega),
      Option.getD_none, setType, Mem.store, if_neg (by omega)] at hbyte
    exact absurd hbyte (by decide)

/-- In a stream of these requests, only their beginnings look like one. -/
theorem beginning_of_closeZero {n i : ℕ} (hi : i + serverMessageSize ≤ clientMessageSize * n)
    (h : (((List.replicate n closeZero).flatten).drop i).take serverMessageSize =
      request closeZero) : i = clientMessageSize * (i / clientMessageSize) := by
  have hlen : ∀ m ∈ List.replicate n closeZero, m.length = clientMessageSize := fun m hm => by
    rw [eq_of_mem_replicate hm, length_closeZero]
  obtain ⟨q, r, hqr, hr⟩ : ∃ q r, i = clientMessageSize * q + r ∧ r < clientMessageSize :=
    ⟨i / clientMessageSize, i % clientMessageSize, (Nat.div_add_mod _ _).symm,
      Nat.mod_lt _ (by decide)⟩
  have hq : q < n := by
    simp only [clientMessageSize, serverMessageSize] at hi hqr
    omega
  have hstream : ((List.replicate n closeZero).flatten).drop i =
      (closeZero ++ (List.replicate (n - (q + 1)) closeZero).flatten).drop r := by
    rw [hqr, ← drop_drop, drop_flatten_messages q hlen, drop_replicate,
      show n - q = n - (q + 1) + 1 by omega, replicate_succ, flatten_cons]
  have hhead : closeZero[r]? = some 1 := by
    have h' := congrArg List.head? h
    rw [hstream, head?_take, if_neg (by decide), head?_drop,
      getElem?_append_left (by rw [length_closeZero]; exact hr)] at h'
    rw [h', request, head?_take, if_neg (by decide), head?_eq_getElem?, closeZero_zero]
  have h0 := getElem?_closeZero hhead
  rw [hqr, h0, Nat.add_zero, Nat.mul_div_cancel_left _ (by decide)]

/-- The pieces that a server executes lie at the beginnings of the messages. -/
theorem fullOffsets_of_closeZero {n : ℕ} {cut : List ℕ} (hsum : cut.sum = clientMessageSize * n)
    (h : (cut.splitLengths (List.replicate n closeZero).flatten).filter
      (fun bs => bs.length = serverMessageSize) = List.replicate n (request closeZero)) :
    fullOffsets 0 cut = (List.range n).map (clientMessageSize * ·) := by
  obtain ⟨hpair, hbounds⟩ := fullOffsets_bounds cut 0
  have hlen : ∀ m ∈ List.replicate n closeZero, m.length = clientMessageSize := fun m hm => by
    rw [eq_of_mem_replicate hm, length_closeZero]
  have hstream := length_flatten_messages hlen
  rw [length_replicate] at hstream
  have hfilter := filter_splitLengths (List.replicate n closeZero).flatten cut 0 (by omega)
  rw [drop_zero, h] at hfilter
  have hmul : ∀ i ∈ fullOffsets 0 cut, i = clientMessageSize * (i / clientMessageSize) := by
    intro i hi
    have hle := (hbounds i hi).2
    refine beginning_of_closeZero (n := n) (by omega) ?_
    exact eq_of_mem_replicate (hfilter ▸ mem_map_of_mem hi)
  have hdiv : (fullOffsets 0 cut).map (· / clientMessageSize) = List.range n := by
    refine eq_range_of_pairwise_lt ?_ (fun q hq => ?_) ?_
    · refine pairwise_map.2 (hpair.imp_of_mem fun {a b} ha hb hab => ?_)
      have h1 := hmul a ha
      have h2 := hmul b hb
      by_contra hge
      have := Nat.mul_le_mul_left clientMessageSize (Nat.le_of_not_lt hge)
      omega
    · obtain ⟨i, hi, rfl⟩ := mem_map.1 hq
      have hle := (hbounds i hi).2
      refine Nat.div_lt_of_lt_mul ?_
      rw [serverMessageSize] at hle
      omega
    · rw [length_map]
      simpa using (congrArg List.length hfilter).symm
  rw [← hdiv, map_map]
  exact ((map_congr_left fun i hi => (hmul i hi).symm).trans (map_id _)).symm

theorem length_message (call : ClientCall) (buf : Mem) :
    (call.message buf).length = clientMessageSize := by
  cases call <;> exact Mem.length_bytes _ _ _

/-- For every number of messages and every way of cutting their bytes into pieces : the server
executes the requests, whatever they are, each once and in order, and sends as many replies, if and
only if the pieces of 1028 bytes are the beginnings of the messages. -/
theorem requests_iff {σ : Type*} (process : Mem → σ → Mem × σ) (message : Mem) (os : σ) (n : ℕ)
    {cut : List ℕ} (hsum : cut.sum = clientMessageSize * n) :
    (∀ calls : List (ClientCall × Mem), calls.length = n →
      let messages := calls.map fun p => p.1.message p.2
      let c := serve process (Served.start message os) (cut.splitLengths messages.flatten)
      c.executed = messages.map request ∧ c.replies.length = n) ↔
    fullOffsets 0 cut = (List.range n).map (clientMessageSize * ·) := by
  constructor
  · intro h
    have hexec := (h (List.replicate n (.closeFile 0, fun _ => 255)) (by simp)).1
    rw [(serve_start _ _ _ _).1, map_replicate, map_replicate] at hexec
    exact fullOffsets_of_closeZero hsum hexec
  · intro hoff calls hlen messages c
    have hmessages : ∀ m ∈ messages, m.length = clientMessageSize := by
      intro m hm
      obtain ⟨p, -, rfl⟩ := mem_map.1 hm
      exact length_message p.1 p.2
    have hn : messages.length = n := by rw [length_map, hlen]
    have hstream := length_flatten_messages hmessages
    have hfilter := filter_splitLengths messages.flatten cut 0 (by rw [hstream, hsum, hn]; omega)
    rw [drop_zero, hoff, ← hn, map_beginnings hmessages] at hfilter
    obtain ⟨hexec, hreplies⟩ := serve_start process message os (cut.splitLengths messages.flatten)
    rw [hfilter] at hexec hreplies
    exact ⟨hexec, by rw [hreplies, length_map, hn]⟩

/-- One message that arrives in two pieces, its first 1028 bytes and the rest. -/
theorem requests_iff_oneMessage :
    (serve Prod.mk (Served.start (fun _ => 0) ()) ([1028, 4].splitLengths closeZero)).executed =
      [request closeZero] := by
  have h := ((requests_iff Prod.mk (fun _ => 0) () 1 (by decide : [1028, 4].sum = _)).2 (by decide)
    [(.closeFile 0, fun _ => 255)] rfl).1
  simp only [map_cons, map_nil, flatten_cons, flatten_nil, append_nil] at h
  exact h

/-- One message that arrives in two pieces of 500 and 532 bytes : the server executes nothing. -/
theorem split_message_not_executed :
    (serve Prod.mk (Served.start (fun _ => 0) ()) ([500, 532].splitLengths closeZero)).executed =
      [] ∧ [closeZero].map request ≠ [] := by
  have hfilter := filter_splitLengths closeZero [500, 532] 0 (by rw [length_closeZero]; decide)
  rw [(serve_start _ _ _ _).1]
  exact ⟨hfilter, nofun⟩

end Rdfs
