import Mathlib.Algebra.GroupWithZero.Nat
import Mathlib.Data.List.Nodup
import Mathlib.Logic.Function.Basic
import Rdfs.Trace

/-!
# Requests to the slaves

`rdfs_rdma_block_rw` reads or writes a block of a slave with one work request. It takes the next of
64 request ids of the slave under a lock, sets the bit of the id in `lock_word`, posts the work
request, and waits until it can set the bit again. `comp_handler_send` clears the bit of a work
request that has completed. The ids are reused in turn, whether or not the call that has one has
returned, so the completion of one call can end the wait of another.

A run is any interleaving of the steps of the calls to all slaves with the deliveries of
completions. In a run in which an id is only taken when no call in flight has it, no call returns
before its own work request has completed (`answered_of_idFree`).
-/

namespace Rdfs

open List Function Option

/-! ## The code -/

/-- `struct rdfs_req_id` of a slave, without its lock. -/
structure ReqId where
  currentReqId : ℕ
  lockWord : BitVec 64
deriving DecidableEq

/-- `REQ_ID_MASK`. -/
def reqIdMask : ℕ := 0x000FFFFFFFFFFFFF

/-- `wr_id`. -/
def wrId (sId reqId : ℕ) : ℕ := (sId <<< 52 ||| reqId) % 2 ^ 64

/-- `set_bit`. -/
def setBit (w : BitVec 64) (n : ℕ) : BitVec 64 := w ||| BitVec.twoPow 64 n

/-- `clear_bit_unlock`. -/
def clearBit (w : BitVec 64) (n : ℕ) : BitVec 64 := w &&& ~~~BitVec.twoPow 64 n

/-- Where a call of `rdfs_rdma_block_rw` is : it has not begun, it has taken an id, it has set the
bit, it has posted and waits, it has returned `size`, or it has returned -1. -/
inductive RdmaCall
  | ready
  | taken (reqId : ℕ)
  | marked (reqId : ℕ)
  | posted (reqId : ℕ)
  | returned
  | failed
deriving DecidableEq, Repr

/-- The id that a call in flight has. -/
def RdmaCall.reqId : RdmaCall → Option ℕ
  | .taken r | .marked r | .posted r => some r
  | .ready | .returned | .failed => none

/-- The `req_id` of every slave, the work requests of every slave that have not completed, with the
calls they belong to, and the calls. A call is in `completed` once a success of its own work request
has been delivered. -/
structure Rdma where
  reqs : ℕ → ReqId
  queue : ℕ → List (ℕ × ℕ)
  calls : ℕ → RdmaCall
  completed : ℕ → Bool

/-- A step of a call, or the delivery of the next completion of a slave. A wait also ends if the
task is killed, since it is `TASK_KILLABLE`; what `wait_on_bit_lock` returns is not looked at. -/
inductive RdmaOp
  | take (c : ℕ)
  | mark (c : ℕ)
  | post (c : ℕ) (ok : Bool)
  | wait (c : ℕ)
  | killed (c : ℕ)
  | complete (s : ℕ) (ok : Bool)
deriving DecidableEq, Repr

namespace Rdma

/-- The context of every slave after `rdfs_init_context`. -/
def start : Rdma := ⟨fun _ => ⟨0, 0⟩, fun _ => [], fun _ => .ready, fun _ => false⟩

/-- A call moves on. -/
def goto (st : Rdma) (c : ℕ) (call : RdmaCall) : Rdma :=
  { st with calls := Function.update st.calls c call }

/-- The lock word of a slave is written. -/
def putLockWord (st : Rdma) (s : ℕ) (w : BitVec 64) : Rdma :=
  { st with reqs := Function.update st.reqs s { st.reqs s with lockWord := w } }

/-- The bit of an id is set in the lock word of a slave. -/
def locked (st : Rdma) (s r : ℕ) : Bool := (st.reqs s).lockWord.getLsbD r

/-- The body of the loop of `comp_handler_send`. -/
def compHandlerSend (st : Rdma) (wr c : ℕ) (ok : Bool) : Rdma :=
  if ok then
    let s := wr >>> 52
    { st.putLockWord s (clearBit (st.reqs s).lockWord (wr &&& reqIdMask)) with
      completed := Function.update st.completed c true }
  else st

variable (slave : ℕ → ℕ)

/-- One step; `slave c` is the argument `s_id` of a call. -/
def step (st : Rdma) : RdmaOp → Rdma
  | .take c =>
    let q := st.reqs (slave c)
    { st.goto c (.taken q.currentReqId) with
      reqs := Function.update st.reqs (slave c)
        { q with currentReqId := (q.currentReqId + 1) % 64 } }
  | .mark c => match st.calls c with
    | .taken r =>
      (st.goto c (.marked r)).putLockWord (slave c) (setBit (st.reqs (slave c)).lockWord r)
    | _ => st
  | .post c ok => match st.calls c with
    | .marked r =>
      if ok then { st.goto c (.posted r) with
        queue := Function.update st.queue (slave c)
          (st.queue (slave c) ++ [(wrId (slave c) r, c)]) }
      else st.goto c .failed
    | _ => st
  | .wait c => match st.calls c with
    | .posted r =>
      (st.goto c .returned).putLockWord (slave c) (setBit (st.reqs (slave c)).lockWord r)
    | _ => st
  | .killed c => st.goto c .returned
  | .complete s ok => match st.queue s with
    | (wr, c) :: rest =>
      ({ st with queue := Function.update st.queue s rest }).compHandlerSend wr c ok
    | [] => st

/-- A step can be taken : the call is there, the bit it waits for is clear, and there is a work
request to complete. -/
def Valid (st : Rdma) : RdmaOp → Prop
  | .take c => st.calls c = .ready
  | .mark c => ∃ r ∈ (st.calls c).reqId, st.calls c = .taken r
  | .post c _ => ∃ r ∈ (st.calls c).reqId, st.calls c = .marked r
  | .wait c => ∃ r ∈ (st.calls c).reqId, st.calls c = .posted r ∧ st.locked (slave c) r = false
  | .killed c => ∃ r ∈ (st.calls c).reqId, st.calls c = .posted r
  | .complete s _ => st.queue s ≠ []

instance (st : Rdma) : ∀ op, Decidable (st.Valid slave op)
  | .take c => inferInstanceAs (Decidable (st.calls c = .ready))
  | .mark _ | .post _ _ | .wait _ | .killed _ => inferInstanceAs (Decidable (∃ r ∈ _, _))
  | .complete s _ => inferInstanceAs (Decidable (st.queue s ≠ []))

/-- An id is taken when no call in flight to the same slave has it, and no call is killed. -/
def IdFree (st : Rdma) : RdmaOp → Prop
  | .take c => ∀ d, slave d = slave c →
      (st.calls d).reqId ≠ some (st.reqs (slave c)).currentReqId
  | .killed _ => False
  | _ => True

/-- Every call that has returned `size` had its own work request completed. -/
def Answered (st : Rdma) : Prop := ∀ c, st.calls c = .returned → st.completed c

end Rdma

/-! ## Words -/

theorem getLsbD_setBit (w : BitVec 64) {n : ℕ} (hn : n < 64) (m : ℕ) :
    (setBit w n).getLsbD m = (w.getLsbD m || decide (n = m)) := by
  by_cases h : n = m
  · subst h
    simp [setBit, hn]
  · simp [setBit, h]

theorem getLsbD_clearBit (w : BitVec 64) {n m : ℕ} (hm : m < 64) (hne : n ≠ m) :
    (clearBit w n).getLsbD m = w.getLsbD m := by
  simp [clearBit, hm, hne.symm]

variable {r c : ℕ}

/-- `comp_handler_send` reads the slave and the id out of `wr_id`. -/
theorem wrId_decode {s r : ℕ} (hs : s < 2 ^ 12) (hr : r < 2 ^ 52) :
    wrId s r >>> 52 = s ∧ wrId s r &&& reqIdMask = r := by
  have hor : s <<< 52 ||| r = 2 ^ 52 * s + r := by
    rw [Nat.shiftLeft_eq, Nat.mul_comm]
    exact (Nat.two_pow_add_eq_or_of_lt hr s).symm
  have hwr : wrId s r = 2 ^ 52 * s + r := by
    rw [wrId, hor, Nat.mod_eq_of_lt (by omega)]
  have hmask : reqIdMask = 2 ^ 52 - 1 := rfl
  rw [hwr, hmask, Nat.shiftRight_eq_div_pow, Nat.and_two_pow_sub_one_eq_mod]
  omega

/-! ## The invariant -/

/-- What holds while no id is taken that a call in flight has : a call that has set its bit finds it
set until its own work request has completed. -/
structure RdmaInv (slave : ℕ → ℕ) (st : Rdma) : Prop where
  current_lt : ∀ s, (st.reqs s).currentReqId < 64
  reqId_lt : ∀ c r, (st.calls c).reqId = some r → r < 64
  unique : ∀ c d r, slave c = slave d → (st.calls c).reqId = some r →
    (st.calls d).reqId = some r → c = d
  queued : ∀ s wr c, (wr, c) ∈ st.queue s → slave c = s ∧ st.completed c = false ∧
    ∃ r, st.calls c = .posted r ∧ wr = wrId s r
  nodup : ∀ s, ((st.queue s).map Prod.snd).Nodup
  marked : ∀ c r, st.calls c = .marked r → st.locked (slave c) r = true
  waiting : ∀ c r, st.calls c = .posted r → st.completed c = false →
    st.locked (slave c) r = true
  posted : ∀ c, st.completed c = true → st.calls c = .returned ∨ ∃ r, st.calls c = .posted r
  answered : st.Answered

namespace RdmaInv

variable {slave : ℕ → ℕ} {st : Rdma}

theorem start : RdmaInv slave Rdma.start where
  current_lt _ := Nat.zero_lt_succ 63
  reqId_lt _ _ h := nomatch h
  unique _ _ _ _ h := nomatch h
  queued _ _ _ h := nomatch h
  nodup _ := nodup_nil
  marked _ _ h := nomatch h
  waiting _ _ h := nomatch h
  posted _ h := nomatch h
  answered _ h := nomatch h

/-- The call of a queued work request is not one that has not posted, or whose work request has
completed. -/
theorem not_queued (h : RdmaInv slave st)
    (hc : (∀ r, st.calls c ≠ .posted r) ∨ st.completed c = true) {s wr : ℕ} :
    (wr, c) ∉ st.queue s := by
  intro hmem
  obtain ⟨-, hcompleted, r, hr, -⟩ := h.queued s wr c hmem
  rcases hc with hc | hc
  · exact hc r hr
  · exact Bool.false_ne_true (hcompleted.symm.trans hc)

/-- A call moves on, if it posts with one work request more, and bits are set. It has an id that no
other call has, its bit is set if it must be, and it returns only if it has completed. -/
structure Moves (slave : ℕ → ℕ) (st t : Rdma) (c : ℕ) (call : RdmaCall) (new : List (ℕ × ℕ)) :
    Prop where
  calls : t.calls = Function.update st.calls c call
  queue : t.queue = Function.update st.queue (slave c) (st.queue (slave c) ++ new)
  completed : t.completed = st.completed
  current : ∀ s, (t.reqs s).currentReqId < 64
  locked : ∀ s r, st.locked s r = true → t.locked s r = true
  start : (∀ r, st.calls c ≠ .posted r) ∧ st.calls c ≠ .returned ∧ call ≠ .returned ∨
    call = .returned ∧ st.completed c = true
  id : ∀ r, call.reqId = some r → r < 64 ∧
    ∀ d, d ≠ c → slave d = slave c → (st.calls d).reqId ≠ some r
  bit : ∀ r, call = .marked r ∨ call = .posted r → t.locked (slave c) r = true
  posts : new = [] ∨ ∃ r, call = .posted r ∧ new = [(wrId (slave c) r, c)]

namespace Moves

variable {t : Rdma} {c : ℕ} {call : RdmaCall} {new : List (ℕ × ℕ)}

section

variable (m : Moves slave st t c call new)
include m

theorem calls_self : t.calls c = call := by
  rw [m.calls, update_self]

theorem calls_of_ne {d : ℕ} (hd : d ≠ c) : t.calls d = st.calls d := by
  rw [m.calls, update_of_ne hd]

section

variable (h : RdmaInv slave st)
include h

theorem not_queued (s wr : ℕ) : (wr, c) ∉ st.queue s := h.not_queued (m.start.imp (·.1) (·.2))

theorem not_completed (hcall : call ≠ .returned) : st.completed c = false := by
  rcases m.start with ⟨hpost, hret, -⟩ | ⟨hret, -⟩
  · refine Bool.eq_false_iff.2 fun hcomp => ?_
    rcases h.posted c hcomp with hc | ⟨r, hc⟩
    · exact hret hc
    · exact hpost r hc
  · exact absurd hret hcall

theorem mem_queue {s wr d : ℕ} (hd : (wr, d) ∈ t.queue s) : d ≠ c ∧ (wr, d) ∈ st.queue s ∨
      d = c ∧ s = slave c ∧ ∃ r, call = .posted r ∧ wr = wrId s r := by
  have hold : (wr, d) ∈ st.queue s → d ≠ c ∧ (wr, d) ∈ st.queue s := fun hd =>
    ⟨fun hdc => m.not_queued h s wr (hdc ▸ hd), hd⟩
  by_cases hs : s = slave c
  · rw [m.queue, hs, update_self, ← hs] at hd
    rcases mem_append.1 hd with hd | hd
    · exact .inl (hold hd)
    · rcases m.posts with rfl | ⟨r, hcall, rfl⟩
      · exact nomatch hd
      · obtain ⟨hwr, hdc⟩ := Prod.mk.inj (mem_singleton.1 hd)
        exact .inr ⟨hdc, hs, r, hcall, hs ▸ hwr⟩
  · rw [m.queue, update_of_ne hs] at hd
    exact .inl (hold hd)

theorem nodup (s : ℕ) : ((t.queue s).map Prod.snd).Nodup := by
  by_cases hs : s = slave c
  · rw [m.queue, hs, update_self]
    rcases m.posts with rfl | ⟨r, -, rfl⟩
    · rw [append_nil]
      exact h.nodup _
    · rw [map_append, map_singleton, ← concat_eq_append]
      refine (h.nodup _).concat fun hc => ?_
      obtain ⟨⟨wr, d⟩, he, rfl⟩ := List.mem_map.1 hc
      exact m.not_queued h _ wr he
  · rw [m.queue, update_of_ne hs]
    exact h.nodup s

end

end

end Moves

theorem moves (h : RdmaInv slave st) (new : List (ℕ × ℕ)) {t : Rdma} {call : RdmaCall}
    (m : Moves slave st t c call new) : RdmaInv slave t where
  current_lt := m.current
  reqId_lt d r hr := by
    by_cases hd : d = c
    · subst hd
      exact (m.id r (m.calls_self ▸ hr)).1
    · exact h.reqId_lt d r (m.calls_of_ne hd ▸ hr)
  unique d e r hs hdr her := by
    by_cases hd : d = c <;> by_cases he : e = c
    · exact hd.trans he.symm
    · subst hd
      exact absurd (m.calls_of_ne he ▸ her) ((m.id r (m.calls_self ▸ hdr)).2 e he hs.symm)
    · subst he
      exact absurd (m.calls_of_ne hd ▸ hdr) ((m.id r (m.calls_self ▸ her)).2 d hd hs)
    · exact h.unique d e r hs (m.calls_of_ne hd ▸ hdr) (m.calls_of_ne he ▸ her)
  queued s wr d hd := by
    rcases m.mem_queue h hd with ⟨hdc, hd⟩ | ⟨rfl, rfl, r, hcall, hwr⟩
    · rw [m.completed, m.calls_of_ne hdc]
      exact h.queued s wr d hd
    · have hcomp := m.not_completed h (by rw [hcall]; nofun)
      exact ⟨rfl, m.completed ▸ hcomp, r, m.calls_self.trans hcall, hwr⟩
  nodup := m.nodup h
  marked d r hr := by
    by_cases hd : d = c
    · subst hd
      exact m.bit r (.inl (m.calls_self ▸ hr))
    · exact m.locked _ _ (h.marked d r (m.calls_of_ne hd ▸ hr))
  waiting d r hr hcomp := by
    by_cases hd : d = c
    · subst hd
      exact m.bit r (.inr (m.calls_self ▸ hr))
    · exact m.locked _ _ (h.waiting d r (m.calls_of_ne hd ▸ hr) (m.completed ▸ hcomp))
  posted d hd := by
    rw [m.completed] at hd
    by_cases hdc : d = c
    · subst hdc
      refine .inl (m.calls_self.trans (not_not.1 fun hcall => ?_))
      exact Bool.false_ne_true ((m.not_completed h hcall).symm.trans hd)
    · rw [m.calls_of_ne hdc]
      exact h.posted d hd
  answered d hd := by
    rw [m.completed]
    by_cases hdc : d = c
    · subst hdc
      rcases m.start with ⟨-, -, hcall⟩ | ⟨-, hcomp⟩
      · exact absurd (m.calls_self.symm.trans hd) hcall
      · exact hcomp
    · exact h.answered d (m.calls_of_ne hdc ▸ hd)

end RdmaInv

namespace Rdma

variable {st : Rdma}

theorem locked_setBit (s : ℕ) {n : ℕ} (hn : n < 64) (t r : ℕ) :
    (st.putLockWord s (setBit (st.reqs s).lockWord n)).locked t r =
      (st.locked t r || decide (t = s ∧ n = r)) := by
  by_cases ht : t = s
  · subst ht
    simp [locked, putLockWord, getLsbD_setBit _ hn]
  · simp [locked, putLockWord, ht]

theorem locked_clearBit {s n t r : ℕ} (hr : r < 64) (hne : t = s → n ≠ r) :
    (st.putLockWord s (clearBit (st.reqs s).lockWord n)).locked t r = st.locked t r := by
  by_cases ht : t = s
  · subst ht
    simp [locked, putLockWord, getLsbD_clearBit _ hr (hne rfl)]
  · simp [locked, putLockWord, ht]

theorem putLockWord_current (s : ℕ) (w : BitVec 64) (t : ℕ) :
    ((st.putLockWord s w).reqs t).currentReqId = (st.reqs t).currentReqId := by
  by_cases ht : t = s
  · subst ht
    simp [putLockWord]
  · simp [putLockWord, ht]

end Rdma

namespace RdmaInv

variable {slave : ℕ → ℕ} {st : Rdma}

section

variable (h : RdmaInv slave st)
include h

theorem take (hc : st.calls c = .ready) (hfree : st.IdFree slave (.take c)) :
    RdmaInv slave (st.step slave (.take c)) := by
  have hreqs : ∀ s, ((st.step slave (.take c)).reqs s).lockWord = (st.reqs s).lockWord := by
    intro s
    by_cases hs : s = slave c
    · subst hs
      simp [Rdma.step]
    · simp [Rdma.step, hs]
  refine h.moves [] ⟨rfl, by simp [Rdma.step, Rdma.goto], rfl, fun s => ?_, fun s r hl => ?_,
    .inl ?_, ?_, ?_, .inl rfl⟩
  · by_cases hs : s = slave c
    · subst hs
      simp only [Rdma.step, update_self]
      exact Nat.mod_lt _ (by decide)
    · simp only [Rdma.step, update_of_ne hs]
      exact h.current_lt s
  · rw [Rdma.locked, hreqs]
    exact hl
  · rw [hc]
    exact ⟨nofun, nofun, nofun⟩
  · rintro r hr
    obtain rfl := some.inj hr
    exact ⟨h.current_lt _, fun d _ hs => hfree d hs⟩
  · rintro r (hr | hr) <;> exact nomatch hr

/-- A call that keeps its id has one that no other call has. -/
theorem same_id (hc : (st.calls c).reqId = some r) :
    r < 64 ∧ ∀ d, d ≠ c → slave d = slave c → (st.calls d).reqId ≠ some r :=
  ⟨h.reqId_lt c r hc, fun d hd hs hdr => hd (h.unique d c r hs hdr hc)⟩

theorem mark (hc : st.calls c = .taken r) : RdmaInv slave (st.step slave (.mark c)) := by
  obtain ⟨hr, hfree⟩ := h.same_id (r := r) (by rw [hc]; rfl)
  have hstep : st.step slave (.mark c) =
      (st.goto c (.marked r)).putLockWord (slave c) (setBit (st.reqs (slave c)).lockWord r) := by
    simp only [Rdma.step, hc]
  rw [hstep]
  refine h.moves [] ⟨rfl, by simp [Rdma.goto, Rdma.putLockWord], rfl, fun s => ?_,
    fun s r' hl => ?_, .inl ?_, ?_, ?_, .inl rfl⟩
  · rw [Rdma.putLockWord_current]
    exact h.current_lt s
  · refine (Rdma.locked_setBit _ hr s r').trans ?_
    exact Bool.or_eq_true_iff.2 (.inl hl)
  · rw [hc]
    exact ⟨nofun, nofun, nofun⟩
  · rintro r' hr'
    obtain rfl := some.inj hr'
    exact ⟨hr, hfree⟩
  · rintro r' (hr' | hr')
    · obtain rfl := RdmaCall.marked.inj hr'
      refine (Rdma.locked_setBit _ hr _ _).trans ?_
      simp
    · exact nomatch hr'

theorem post (hc : st.calls c = .marked r) (ok : Bool) :
    RdmaInv slave (st.step slave (.post c ok)) := by
  have hfrom : ∀ call : RdmaCall, call ≠ .returned → (∀ r, st.calls c ≠ .posted r) ∧
      st.calls c ≠ .returned ∧ call ≠ .returned := fun call hcall => by
    rw [hc]
    exact ⟨nofun, nofun, hcall⟩
  cases ok with
  | false =>
    have hstep : st.step slave (.post c false) = st.goto c .failed := by
      simp only [Rdma.step, hc]
      rfl
    rw [hstep]
    refine h.moves [] ⟨rfl, by simp [Rdma.goto], rfl, h.current_lt, fun _ _ hl => hl,
      .inl (hfrom _ nofun), nofun, ?_, .inl rfl⟩
    rintro r' (hr' | hr') <;> exact nomatch hr'
  | true =>
    have hstep : st.step slave (.post c true) = { st.goto c (.posted r) with
        queue := Function.update st.queue (slave c)
          (st.queue (slave c) ++ [(wrId (slave c) r, c)]) } := by
      simp only [Rdma.step, hc]
      rfl
    rw [hstep]
    refine h.moves [(wrId (slave c) r, c)] ⟨rfl, rfl, rfl, h.current_lt, fun _ _ hl => hl,
      .inl (hfrom _ nofun), ?_, ?_, .inr ⟨r, rfl, rfl⟩⟩
    · rintro r' hr'
      obtain rfl := some.inj hr'
      exact h.same_id (by rw [hc]; rfl)
    · rintro r' (hr' | hr')
      · exact nomatch hr'
      · obtain rfl := RdmaCall.posted.inj hr'
        exact h.marked c r hc

theorem wait (hc : st.calls c = .posted r) (hl : st.locked (slave c) r = false) :
    RdmaInv slave (st.step slave (.wait c)) := by
  have hr := h.reqId_lt c r (by rw [hc]; rfl)
  have hcomp : st.completed c = true := by
    by_contra hcomp
    exact Bool.false_ne_true (hl.symm.trans (h.waiting c r hc (Bool.eq_false_iff.2 hcomp)))
  have hstep : st.step slave (.wait c) =
      (st.goto c .returned).putLockWord (slave c) (setBit (st.reqs (slave c)).lockWord r) := by
    simp only [Rdma.step, hc]
  rw [hstep]
  refine h.moves [] ⟨rfl, by simp [Rdma.goto, Rdma.putLockWord], rfl, fun s => ?_,
    fun s r' hl => ?_, .inr ⟨rfl, hcomp⟩, nofun, ?_, .inl rfl⟩
  · rw [Rdma.putLockWord_current]
    exact h.current_lt s
  · refine (Rdma.locked_setBit _ hr s r').trans ?_
    exact Bool.or_eq_true_iff.2 (.inl hl)
  · rintro r' (hr' | hr') <;> exact nomatch hr'

/-- The next work request of a slave is taken out of its queue. -/
theorem dequeue {s wr c : ℕ} {rest : List (ℕ × ℕ)} (hq : st.queue s = (wr, c) :: rest) :
    RdmaInv slave { st with queue := Function.update st.queue s rest } ∧
      ∀ s' wr', (wr', c) ∉ Function.update st.queue s rest s' := by
  have hsub : ∀ s', (Function.update st.queue s rest s').Sublist (st.queue s') := fun s' => by
    by_cases hs : s' = s
    · subst hs
      rw [update_self, hq]
      exact sublist_cons_self _ _
    · rw [update_of_ne hs]
  have hc := (h.queued s wr c (by rw [hq]; exact mem_cons_self)).1
  refine ⟨{ h with
    queued := fun s' wr' d hd => h.queued s' wr' d ((hsub s').subset hd)
    nodup := fun s' => (h.nodup s').sublist ((hsub s').map _) }, fun s' wr' hmem => ?_⟩
  have hs : s' = s := (h.queued s' wr' c ((hsub s').subset hmem)).1.symm.trans hc
  subst hs
  have hnodup := h.nodup s'
  rw [hq, map_cons, nodup_cons] at hnodup
  rw [update_self] at hmem
  exact hnodup.1 (List.mem_map.2 ⟨_, hmem, rfl⟩)

/-- A success is delivered to the call in flight with the id it carries. -/
theorem compHandlerSend (hslave : slave c < 2 ^ 12) (hc : st.calls c = .posted r)
    (hq : ∀ s wr, (wr, c) ∉ st.queue s) :
    RdmaInv slave (st.compHandlerSend (wrId (slave c) r) c true) := by
  have hr := h.reqId_lt c r (by rw [hc]; rfl)
  obtain ⟨hs, hid⟩ := wrId_decode hslave (by omega : r < 2 ^ 52)
  have hstep : st.compHandlerSend (wrId (slave c) r) c true =
      { st.putLockWord (slave c) (clearBit (st.reqs (slave c)).lockWord r) with
        completed := Function.update st.completed c true } := by
    simp only [Rdma.compHandlerSend, hs, hid, if_true]
  generalize ht : st.compHandlerSend (wrId (slave c) r) c true = t
  rw [hstep] at ht
  have hcalls : t.calls = st.calls := ht ▸ rfl
  have hqueue : t.queue = st.queue := ht ▸ rfl
  have hcompleted : t.completed = Function.update st.completed c true := ht ▸ rfl
  -- the bit of another call in flight is not the one that is cleared
  have hlocked : ∀ d r', d ≠ c → (st.calls d).reqId = some r' →
      st.locked (slave d) r' = true → t.locked (slave d) r' = true := by
    intro d r' hd hdr hl
    rw [← ht]
    refine (Rdma.locked_clearBit (h.reqId_lt d r' hdr) ?_).trans hl
    rintro hsd rfl
    exact hd (h.unique d c r hsd hdr (by rw [hc]; rfl))
  exact
    { current_lt := fun s => by
        rw [← ht]
        exact Nat.lt_of_le_of_lt (Nat.le_of_eq (Rdma.putLockWord_current _ _ s)) (h.current_lt s)
      reqId_lt := hcalls ▸ h.reqId_lt
      unique := hcalls ▸ h.unique
      queued := fun s wr d hd => by
        rw [hqueue] at hd
        have hdc : d ≠ c := fun hdc => hq s wr (hdc ▸ hd)
        rw [hcompleted, update_of_ne hdc, hcalls]
        exact h.queued s wr d hd
      nodup := hqueue ▸ h.nodup
      marked := fun d r' hd => by
        rw [hcalls] at hd
        refine hlocked d r' ?_ (by rw [hd]; rfl) (h.marked d r' hd)
        rintro rfl
        exact nomatch hc.symm.trans hd
      waiting := fun d r' hd hcomp => by
        rw [hcalls] at hd
        rw [hcompleted] at hcomp
        have hdc : d ≠ c := by
          rintro rfl
          rw [update_self] at hcomp
          exact nomatch hcomp
        rw [update_of_ne hdc] at hcomp
        exact hlocked d r' hdc (by rw [hd]; rfl) (h.waiting d r' hd hcomp)
      posted := fun d hd => by
        rw [hcalls]
        rw [hcompleted] at hd
        by_cases hdc : d = c
        · exact .inr ⟨r, hdc ▸ hc⟩
        · rw [update_of_ne hdc] at hd
          exact h.posted d hd
      answered := fun d hd => by
        rw [hcalls] at hd
        rw [hcompleted]
        by_cases hdc : d = c
        · rw [hdc, update_self]
        · rw [update_of_ne hdc]
          exact h.answered d hd }

theorem complete (hslave : ∀ c, slave c < 2 ^ 12) {s : ℕ} (hs : st.queue s ≠ []) (ok : Bool) :
    RdmaInv slave (st.step slave (.complete s ok)) := by
  obtain ⟨⟨wr, c⟩, rest, hq⟩ := exists_cons_of_ne_nil hs
  obtain ⟨hdeq, hnot⟩ := h.dequeue hq
  obtain ⟨rfl, -, r, hc, rfl⟩ := h.queued s wr c (by rw [hq]; exact mem_cons_self)
  have hstep : st.step slave (.complete (slave c) ok) =
      ({ st with queue := Function.update st.queue (slave c) rest }).compHandlerSend
        (wrId (slave c) r) c ok := by
    simp only [Rdma.step, hq]
  rw [hstep]
  cases ok with
  | false => exact hdeq
  | true => exact hdeq.compHandlerSend (hslave c) hc hnot

/-- A step keeps the invariant if it takes no id that a call in flight has. -/
theorem step (hslave : ∀ c, slave c < 2 ^ 12) {op : RdmaOp} (hv : st.Valid slave op)
    (hfree : st.IdFree slave op) : RdmaInv slave (st.step slave op) := by
  cases op with
  | take c => exact h.take hv hfree
  | mark c =>
    obtain ⟨r, -, hr⟩ := hv
    exact h.mark hr
  | post c ok =>
    obtain ⟨r, -, hr⟩ := hv
    exact h.post hr ok
  | wait c =>
    obtain ⟨r, -, hr, hl⟩ := hv
    exact h.wait hr hl
  | killed c => exact hfree.elim
  | complete s ok => exact h.complete hslave hv ok

end

end RdmaInv

/-! ## Runs -/

/-- In every run of any number of calls to the slaves in which an id is taken only when no call in
flight has it, and no call is killed : a call returns `size` only after its own work request has
completed with success. -/
theorem answered_of_idFree {slave : ℕ → ℕ} (hslave : ∀ c, slave c < 2 ^ 12) {ops : List RdmaOp}
    (hv : Each (Rdma.step slave) (Rdma.Valid slave) Rdma.start ops)
    (hfree : Each (Rdma.step slave) (Rdma.IdFree slave) Rdma.start ops) :
    Always (Rdma.step slave) Rdma.Answered Rdma.start ops := by
  have hinv : Always (Rdma.step slave) (RdmaInv slave) Rdma.start ops :=
    (hv.and hfree).always (fun _ _ h hp => h.step hslave hp.1 hp.2) RdmaInv.start
  exact hinv.imp fun _ h => h.answered

/-- One call to the slave 0. -/
def oneCall : List RdmaOp := [.take 0, .mark 0, .post 0 true, .complete 0 true, .wait 0]

theorem answered_of_idFree_oneCall :
    Always (Rdma.step fun _ => 0) Rdma.Answered Rdma.start oneCall :=
  answered_of_idFree (fun _ => by decide) (by decide +kernel)
    ⟨fun _ _ => nofun, trivial, trivial, trivial, trivial, trivial⟩

/-- The call 0 posts, the calls 1 to 63 take an id, and the call 64 takes the id 0 again and posts.
Then the work request of the call 0 completes. -/
def idReused : List RdmaOp :=
  [.take 0, .mark 0, .post 0 true] ++ (List.range 63).map (fun c => .take (c + 1)) ++
    [.take 64, .mark 64, .post 64 true, .complete 0 true, .wait 64]

/-- The call 64 returns although its own work request has not completed. -/
theorem idReused_not_answered : Each (Rdma.step fun _ => 0) (Rdma.Valid fun _ => 0) Rdma.start
    idReused ∧ ¬ Always (Rdma.step fun _ => 0) Rdma.Answered Rdma.start idReused := by
  refine ⟨by decide +kernel, fun h => ?_⟩
  have hcompleted := h.last 64 (by decide +kernel)
  exact absurd hcompleted (by decide +kernel)

end Rdfs
