import Rdfs.Links

/-!
# The task list of the master

The master makes a task of every message it receives and adds it to a list, from which the worker
takes one task after the other (`master_service.c`). Both happen under the lock of the list, so a
run is a sequence of whole additions and removals, in any order.

The list is linked through the tasks, and `rdfs_add_task` and `rdfs_remove_task` work at its head.
`Tasks` records which requests have arrived, by number, and which have been handed to the worker.
No request is lost and none handed over twice (`TaskInv`), but the last one to arrive is the first
one to be handed over. The requests of a connection stay in order as long as none arrives while
another one of the same connection waits (`TaskRun.delivery`).
-/

namespace Rdfs

open List Function

/-! ## The code -/

/-- The list, the fields of the tasks by their addresses, the tasks allocated, and the task the
worker has. A message stands for its number : `arrived` are the connections of the messages
received so far, and `handed` are the numbers of those that the worker has been given. -/
structure Tasks where
  taskList : ℕ
  next : ℕ → ℕ
  cSock : ℕ → ℕ
  message : ℕ → ℕ
  live : List ℕ
  running : ℕ
  arrived : List ℕ
  handed : List ℕ

namespace Tasks

/-- `rdfs_init_job_service`; the fields of tasks to come hold anything. -/
def init (next cSock message : ℕ → ℕ) : Tasks where
  taskList := 0
  next := next
  cSock := cSock
  message := message
  live := []
  running := 0
  arrived := []
  handed := []

/-- `rdfs_add_task`. -/
def rdfsAddTask (s : Tasks) (task : ℕ) : Tasks :=
  if s.taskList = 0 then { s with taskList := task }
  else { s with next := Function.update s.next task s.taskList, taskList := task }

/-- `rdfs_process_request` : a message of the connection `sock` arrives, and `kmalloc` returns
`task` for it. -/
def rdfsProcessRequest (s : Tasks) (sock task : ℕ) : Tasks :=
  rdfsAddTask
    { s with
      message := Function.update s.message task s.arrived.length
      next := Function.update s.next task 0
      cSock := Function.update s.cSock task sock
      live := task :: s.live
      arrived := s.arrived ++ [sock] } task

/-- `rdfs_remove_task`, 0 for `NULL`. -/
def rdfsRemoveTask (s : Tasks) : ℕ × Tasks :=
  if s.taskList = 0 then (0, s)
  else
    let tmp := s.taskList
    (tmp, { s with taskList := s.next tmp, next := Function.update s.next tmp 0 })

/-- `rdfs_process_task` takes a task, or goes to sleep. -/
def take (s : Tasks) : Tasks :=
  let r := s.rdfsRemoveTask
  if r.1 = 0 then r.2
  else { r.2 with running := r.1, handed := s.handed ++ [s.message r.1] }

/-- `rdfs_process_task` is done with its task. A task of an unknown type is not freed. -/
def finish (s : Tasks) (known : Bool) : Tasks :=
  if known then
    { s with
      cSock := Function.update s.cSock s.running 0
      next := Function.update s.next s.running 0
      live := s.live.erase s.running
      running := 0 }
  else { s with running := 0 }

/-- The numbers among `l` that are messages of the connection `sock`. -/
def ofSock (s : Tasks) (sock : ℕ) (l : List ℕ) : List ℕ :=
  l.filter fun k => s.arrived[k]? = some sock

/-- The requests of each connection that have been handed over are the first ones to arrive, in
their order. -/
def FirstCome (s : Tasks) : Prop :=
  ∀ sock, s.ofSock sock s.handed <+: s.ofSock sock (List.range s.arrived.length)

/-- No task of the connection is in the list. -/
def NoneWaiting (s : Tasks) (sock : ℕ) : Prop :=
  ∀ waiting, LinkedTo s.next s.taskList waiting → ∀ p ∈ waiting, s.cSock p ≠ sock

end Tasks

/-- Runs of one worker and of any number of services, in which a message of a connection arrives
only in states with `guard`. -/
inductive TaskRun (guard : Tasks → ℕ → Prop) : Tasks → Prop
  | init (next cSock message : ℕ → ℕ) : TaskRun guard (.init next cSock message)
  | request {s : Tasks} (h : TaskRun guard s) (sock task : ℕ) (h0 : task ≠ 0)
      (hfresh : task ∉ s.live) (hguard : guard s sock) :
      TaskRun guard (s.rdfsProcessRequest sock task)
  | take {s : Tasks} (h : TaskRun guard s) (hidle : s.running = 0) : TaskRun guard s.take
  | finish {s : Tasks} (h : TaskRun guard s) (hbusy : s.running ≠ 0) (known : Bool) :
      TaskRun guard (s.finish known)

/-! ## The list -/

/-- The list is `waiting`; every message that has arrived is in the list or has been handed over,
and not both. -/
structure TaskInv (s : Tasks) (waiting : List ℕ) : Prop where
  linked : LinkedTo s.next s.taskList waiting
  live : ∀ p ∈ waiting, p ∈ s.live
  nodup : waiting.Nodup
  busy : s.running = 0 ∨ s.running ∈ s.live
  running : s.running ∉ waiting
  perm : (s.handed ++ waiting.map s.message).Perm (List.range s.arrived.length)
  cSock : ∀ p ∈ waiting, s.arrived[s.message p]? = some (s.cSock p)

/-- The whole of `rdfs_process_request` : `next` of the new task is the old head in both cases. -/
theorem Tasks.rdfsProcessRequest_eq (s : Tasks) (sock task : ℕ) : s.rdfsProcessRequest sock task =
      { s with
        taskList := task
        next := Function.update s.next task s.taskList
        message := Function.update s.message task s.arrived.length
        cSock := Function.update s.cSock task sock
        live := task :: s.live
        arrived := s.arrived ++ [sock] } := by
  unfold Tasks.rdfsProcessRequest Tasks.rdfsAddTask
  by_cases h0 : s.taskList = 0 <;> simp [h0]

namespace TaskInv

variable {s : Tasks} {waiting : List ℕ} {sock task : ℕ}

section

variable (h : TaskInv s waiting)
include h

theorem lt_of_mem {k : ℕ} (hk : k ∈ s.handed ++ waiting.map s.message) : k < s.arrived.length :=
  mem_range.1 (h.perm.subset hk)

theorem notMem_of_fresh (hfresh : task ∉ s.live) : task ∉ waiting :=
  fun hmem => hfresh (h.live task hmem)

theorem map_message (hfresh : task ∉ s.live) (k : ℕ) :
    waiting.map (Function.update s.message task k) = waiting.map s.message :=
  map_congr_left fun _ hp =>
    update_of_ne (ne_of_mem_of_not_mem hp (h.notMem_of_fresh hfresh)) _ _

/-- A new message goes to the front of the list. -/
theorem request (h0 : task ≠ 0) (hfresh : task ∉ s.live) :
    TaskInv (s.rdfsProcessRequest sock task) (task :: waiting) := by
  have hnot := h.notMem_of_fresh hfresh
  rw [Tasks.rdfsProcessRequest_eq]
  refine ⟨h.linked.push h0 hnot, ?_, nodup_cons.2 ⟨hnot, h.nodup⟩, ?_, ?_, ?_, ?_⟩
  · intro p hp
    exact mem_cons.2 ((mem_cons.1 hp).imp_right (h.live p))
  · exact h.busy.imp_right (mem_cons_of_mem _)
  · show s.running ∉ task :: waiting
    rw [mem_cons, not_or]
    refine ⟨?_, h.running⟩
    rintro rfl
    rcases h.busy with hidle | hlive
    · exact h0 hidle
    · exact hfresh hlive
  · simp only [map_cons, update_self, h.map_message hfresh, length_append,
      length_singleton, range_succ]
    exact perm_middle.trans ((h.perm.cons _).trans (perm_append_singleton _ _).symm)
  · intro p hp
    rcases mem_cons.1 hp with rfl | hp
    · simp
    · have hne := ne_of_mem_of_not_mem hp hnot
      simp only [update_of_ne hne]
      rw [getElem?_append_left (h.lt_of_mem (mem_append_right _ (mem_map_of_mem hp)))]
      exact h.cSock p hp

end

/-- The worker takes the first task of the list. -/
theorem take_cons (h : TaskInv s (task :: waiting)) : s.take = { s with
        taskList := s.next task
        next := Function.update s.next task 0
        running := task
        handed := s.handed ++ [s.message task] } ∧ TaskInv s.take waiting := by
  obtain ⟨hhead, h0, hrest⟩ := h.linked
  obtain ⟨hnot, hnodup⟩ := nodup_cons.1 h.nodup
  have heq : s.take = { s with
      taskList := s.next task
      next := Function.update s.next task 0
      running := task
      handed := s.handed ++ [s.message task] } := by
    simp [Tasks.take, Tasks.rdfsRemoveTask, hhead, h0]
  refine ⟨heq, ?_⟩
  rw [heq]
  refine ⟨hrest.update_of_notMem hnot _, fun p hp => h.live p (mem_cons_of_mem _ hp), hnodup,
    Or.inr (h.live task mem_cons_self), hnot, ?_, fun p hp => h.cSock p (mem_cons_of_mem _ hp)⟩
  simpa using h.perm

/-- The worker finds the list empty. -/
theorem take_nil (h : TaskInv s []) : s.take = s := by
  have hhead : s.taskList = 0 := h.linked
  simp [Tasks.take, Tasks.rdfsRemoveTask, hhead]

/-- The worker is done with its task, which is not in the list. -/
theorem finish (h : TaskInv s waiting) (known : Bool) : TaskInv (s.finish known) waiting := by
  have hzero : 0 ∉ waiting := fun hmem => h.linked.ne_zero hmem rfl
  cases known with
  | false => exact ⟨h.linked, h.live, h.nodup, Or.inl rfl, hzero, h.perm, h.cSock⟩
  | true =>
    refine ⟨h.linked.update_of_notMem h.running _, fun p hp => ?_, h.nodup, Or.inl rfl, hzero,
      h.perm, fun p hp => ?_⟩
    · exact (mem_erase_of_ne (ne_of_mem_of_not_mem hp h.running)).2 (h.live p hp)
    · have hne := ne_of_mem_of_not_mem hp h.running
      simp only [Tasks.finish, if_true, update_of_ne hne]
      exact h.cSock p hp

end TaskInv

/-! ## The order of one connection -/

/-- What has arrived on each connection is what has been handed over and, behind it, what
waits. -/
def Conserved (s : Tasks) (waiting : List ℕ) : Prop :=
  ∀ sock, s.ofSock sock (List.range s.arrived.length) =
    s.ofSock sock s.handed ++ s.ofSock sock (waiting.map s.message)

theorem Conserved.firstCome {s : Tasks} {waiting : List ℕ} (h : Conserved s waiting) :
    s.FirstCome :=
  fun sock => by rw [h sock]; exact prefix_append _ _

theorem Tasks.ofSock_append (s : Tasks) (sock : ℕ) (l l' : List ℕ) :
    s.ofSock sock (l ++ l') = s.ofSock sock l ++ s.ofSock sock l' :=
  filter_append _ _

/-- A new message changes nothing for the numbers there are. -/
theorem Tasks.ofSock_request {s : Tasks} {l : List ℕ} (hl : ∀ k ∈ l, k < s.arrived.length)
    (sock sock' task : ℕ) : (s.rdfsProcessRequest sock' task).ofSock sock l = s.ofSock sock l := by
  refine filter_congr fun k hk => ?_
  simp only [Tasks.rdfsProcessRequest_eq, getElem?_append_left (hl k hk)]

namespace TaskInv

variable {s : Tasks} {waiting : List ℕ} {sock task : ℕ}

/-- A message arrives that no other one of its connection waits before. -/
theorem conserved_request (h : TaskInv s waiting) (hc : Conserved s waiting)
    (hfresh : task ∉ s.live) (halone : ∀ p ∈ waiting, s.cSock p ≠ sock) :
    Conserved (s.rdfsProcessRequest sock task) (task :: waiting) := by
  have hwaiting : s.ofSock sock (waiting.map s.message) = [] := by
    refine filter_eq_nil_iff.2 fun k hk => ?_
    obtain ⟨p, hp, rfl⟩ := mem_map.1 hk
    simpa [h.cSock p hp] using halone p hp
  have hnew : ∀ sock', sock' ≠ sock →
      (s.rdfsProcessRequest sock task).ofSock sock' [s.arrived.length] = [] := fun sock' hne => by
    simp [Tasks.ofSock, Tasks.rdfsProcessRequest_eq, hne.symm]
  have hhanded : ∀ k ∈ s.handed, k < s.arrived.length := fun k hk =>
    h.lt_of_mem (mem_append_left _ hk)
  have hmap : ∀ k ∈ waiting.map s.message, k < s.arrived.length := fun k hk =>
    h.lt_of_mem (mem_append_right _ hk)
  have hmessages : (task :: waiting).map (s.rdfsProcessRequest sock task).message =
      [s.arrived.length] ++ waiting.map s.message := by
    simp [Tasks.rdfsProcessRequest_eq, h.map_message hfresh]
  have hlen : (s.rdfsProcessRequest sock task).arrived.length = s.arrived.length + 1 := by
    simp [Tasks.rdfsProcessRequest_eq]
  have hsame : (s.rdfsProcessRequest sock task).handed = s.handed := by
    rw [Tasks.rdfsProcessRequest_eq]
  intro sock'
  rw [hmessages, hlen, hsame, range_succ, Tasks.ofSock_append, Tasks.ofSock_append,
    Tasks.ofSock_request hhanded, Tasks.ofSock_request hmap,
    Tasks.ofSock_request fun k hk => mem_range.1 hk, hc sock']
  by_cases hsock : sock' = sock
  · subst hsock
    rw [hwaiting, append_nil, append_nil]
  · rw [hnew sock' hsock, append_nil, nil_append]

/-- The worker takes a task. -/
theorem conserved_take (h : TaskInv s (task :: waiting)) (hc : Conserved s (task :: waiting)) :
    Conserved s.take waiting := by
  rw [h.take_cons.1]
  intro sock
  show s.ofSock sock _ = s.ofSock sock (s.handed ++ [s.message task]) ++ s.ofSock sock _
  rw [hc sock, map_cons, ← singleton_append, Tasks.ofSock_append, Tasks.ofSock_append, append_assoc]

theorem conserved_finish (hc : Conserved s waiting) (known : Bool) :
    Conserved (s.finish known) waiting := by
  cases known <;> exact hc

end TaskInv

/-! ## Runs -/

theorem TaskRun.inv {guard : Tasks → ℕ → Prop} {s : Tasks} (h : TaskRun guard s) :
    ∃ waiting, TaskInv s waiting ∧
      ((∀ s sock, guard s sock → s.NoneWaiting sock) → Conserved s waiting) := by
  induction h with
  | init next cSock message =>
    exact ⟨[], ⟨rfl, by simp, .nil, Or.inl rfl, by simp, .nil, by simp⟩, fun _ _ => rfl⟩
  | request _ sock task h0 hfresh hguard ih =>
    obtain ⟨waiting, hinv, hc⟩ := ih
    refine ⟨task :: waiting, hinv.request h0 hfresh, fun hg => ?_⟩
    exact hinv.conserved_request (hc hg) hfresh (hg _ sock hguard waiting hinv.linked)
  | take _ _ ih =>
    obtain ⟨waiting, hinv, hc⟩ := ih
    cases waiting with
    | nil =>
      rw [hinv.take_nil]
      exact ⟨[], hinv, hc⟩
    | cons task waiting => exact ⟨waiting, hinv.take_cons.2, fun hg => hinv.conserved_take (hc hg)⟩
  | finish _ _ known ih =>
    obtain ⟨waiting, hinv, hc⟩ := ih
    exact ⟨waiting, hinv.finish known, fun hg => TaskInv.conserved_finish (hc hg) known⟩

/-- A request that arrives while another one of its connection waits, and is taken first. -/
theorem TaskInv.overtaken {s : Tasks} {waiting : List ℕ} {sock task : ℕ} (h : TaskInv s waiting)
    (h0 : task ≠ 0) (hfresh : task ∉ s.live) (hwait : ∃ p ∈ waiting, s.cSock p = sock) :
    ¬(s.rdfsProcessRequest sock task).take.FirstCome := by
  obtain ⟨p, hp, rfl⟩ := hwait
  intro horder
  obtain ⟨rest, hrest⟩ := horder (s.cSock p)
  have hinv : TaskInv (s.rdfsProcessRequest (s.cSock p) task) (task :: waiting) :=
    h.request h0 hfresh
  rw [hinv.take_cons.1, Tasks.rdfsProcessRequest_eq] at hrest
  simp only [Tasks.ofSock, update_self] at hrest
  have hk : s.message p < s.arrived.length := h.lt_of_mem (mem_append_right _ (mem_map_of_mem hp))
  have hnot : s.message p ∉ s.handed ++ [s.arrived.length] := by
    have hnodup := (nodup_append.1 (h.perm.nodup_iff.2 nodup_range)).2.2
    rw [mem_append, mem_singleton, not_or]
    exact ⟨fun hmem => hnodup _ hmem _ (mem_map_of_mem hp) rfl, by omega⟩
  set f := fun k : ℕ => decide ((s.arrived ++ [s.cSock p])[k]? = some (s.cSock p)) with hf
  -- both numbers are among those that arrived, and these ascend
  have hsorted := (pairwise_lt_range (n := (s.arrived ++ [s.cSock p]).length)).filter f
  rw [← hrest, pairwise_append] at hsorted
  have hmem : s.message p ∈ rest := by
    have hin : s.message p ∈ (List.range (s.arrived ++ [s.cSock p]).length).filter f := by
      rw [mem_filter, mem_range, length_append, hf]
      exact ⟨by omega, by simpa [getElem?_append_left hk] using h.cSock p hp⟩
    rw [← hrest, mem_append] at hin
    exact hin.resolve_left fun hin' => hnot (mem_filter.1 hin').1
  have hlast : s.arrived.length ∈ (s.handed ++ [s.arrived.length]).filter f := by
    simp [hf]
  have := hsorted.2.2 _ hlast _ hmem
  omega

/-- In every run, with any order of additions and removals, each request is handed over at most
once and is in the list until then. If no request is added while another one of its connection
waits, the requests of each connection are handed over in the order in which they arrived; a
request that is added while another one waits is taken before it by an idle worker. -/
theorem TaskRun.delivery {guard : Tasks → ℕ → Prop} {s : Tasks} (h : TaskRun guard s) :
    s.handed.Nodup ∧ (∃ waiting, LinkedTo s.next s.taskList waiting ∧
      (s.handed ++ waiting.map s.message).Perm (List.range s.arrived.length)) ∧
    ((∀ s sock, guard s sock → s.NoneWaiting sock) → s.FirstCome) ∧
    ∀ sock task, task ≠ 0 → task ∉ s.live → ¬s.NoneWaiting sock →
      ¬(s.rdfsProcessRequest sock task).take.FirstCome := by
  obtain ⟨waiting, hinv, hc⟩ := h.inv
  refine ⟨?_, ⟨waiting, hinv.linked, hinv.perm⟩, fun hg => (hc hg).firstCome,
    fun sock task h0 hfresh hwait => hinv.overtaken h0 hfresh ?_⟩
  · exact (nodup_append.1 (hinv.perm.nodup_iff.2 nodup_range)).1
  · simp only [Tasks.NoneWaiting] at hwait
    push Not at hwait
    obtain ⟨waiting', hlinked, p, hp, hsock⟩ := hwait
    exact ⟨p, hlinked.unique hinv.linked ▸ hp, hsock⟩

/-- Requests of two connections, one of which is taken. -/
theorem TaskRun.delivery_twoSocks : ∃ s, TaskRun Tasks.NoneWaiting s ∧ s.arrived = [7, 8] ∧
    s.handed = [1] ∧ s.FirstCome := by
  have h₀ : TaskRun Tasks.NoneWaiting _ := TaskRun.init 0 0 0
  have h₁ := h₀.request 7 1 (by decide) (by decide) fun waiting hlinked p hp => by
    rw [hlinked.unique (show LinkedTo _ _ [] from rfl)] at hp
    exact absurd hp (by simp)
  have h₂ := h₁.request 8 2 (by decide) (by decide) fun waiting hlinked p hp => by
    rw [hlinked.unique (show LinkedTo _ _ [1] from ⟨rfl, by decide, rfl⟩), mem_singleton] at hp
    subst hp
    decide
  have h₃ := h₂.take rfl
  exact ⟨_, h₃, rfl, rfl, h₃.delivery.2.2.1 fun _ _ hg => hg⟩

/-- Two requests of one connection before the worker comes to the list : the second one is handed
over first. -/
theorem handed_in_reverse : ∃ s, TaskRun (fun _ _ => True) s ∧ s.arrived = [7, 7] ∧
    s.handed = [1] ∧ ¬s.FirstCome := by
  have h₀ : TaskRun (fun _ _ => True) _ := TaskRun.init 0 0 0
  have h₁ := h₀.request 7 1 (by decide) (by decide) trivial
  have h₂ := h₁.request 7 2 (by decide) (by decide) trivial
  exact ⟨_, h₂.take rfl, rfl, rfl, fun horder => absurd (horder 7) (by decide)⟩

end Rdfs
