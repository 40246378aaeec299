-- SUMMARY: The fate of each submitted job once the executor is deleted: executed once or cancelled once, with its promise set once.
import BoomPar.ExecutorShutdown

/-!
# Fate of the jobs

A deletion after the first shutdown finds neither workers nor submitters and
leaves an empty queue. The token of a job whose submission returned 1 is then
at its end, and the log tells which of the two ends it was.
-/

namespace BoomPar

open Monitor

namespace ExecutorPc

/-- The job that a call of `submit_job_executor` is about, returned or not. -/
def params? : ExecutorPc → Option JobParams
  | .enterSubmit p _ => some p
  | .push p _ => some p
  | .fullWait j _ => some j.params
  | .readWaiting p => some p
  | .readEmpty p => some p
  | .createWorker (.submit p) => some p
  | .startWorker (.submit p) => some p
  | .settleWorker (.submit p) _ => some p
  | .leaveSubmit p _ => some p
  | .returned (.submit p _) => some p
  | _ => none

/-- The submission is given the promise `q`. -/
def gives (q : ℕ) (pc : ExecutorPc) : Bool :=
  pc.params?.any fun p => p.promiseForOutput = some q

/-- A call of `delete_executor`, returned or not. -/
def isDeleting : ExecutorPc → Bool
  | .enterWait .delete => true
  | .waitTest .delete => true
  | .waiting .delete => true
  | .discardTest .delete => true
  | .discardPop .delete => true
  | .discardCancel .delete _ => true
  | .returned (.wait .delete _) => true
  | _ => false

/-- The deletion found no worker. -/
def deletes : ExecutorPc → Bool
  | .discardTest .delete => true
  | .discardPop .delete => true
  | .discardCancel .delete _ => true
  | .returned (.wait .delete b) => b
  | _ => false

/-- `delete_executor` returned 1. -/
def isDeleted : ExecutorPc → Bool
  | .returned (.wait .delete b) => b
  | _ => false

/-- `shutdown_executor` returned to its first caller. -/
def isShutDown : ExecutorPc → Bool
  | .returned (.shutdown first _) => first
  | _ => false

end ExecutorPc

/-- `delete_executor` is called once at most, after `shutdown_executor` returned to
    its first caller, and each promise is given to one job. -/
def ProperUse (c : ExecutorConfig) : Act ExecutorCall Env → Prop
  | .call (.submit _ _ promise _ _) _ => ∀ q ∈ promise, c.count (ExecutorPc.gives q) = 0
  | .call .delete _ => c.count ExecutorPc.isDeleting = 0 ∧ 0 < c.count ExecutorPc.isShutDown
  | _ => True

instance (c : ExecutorConfig) : ∀ a, Decidable (ProperUse c a)
  | .call (.submit _ _ none _ _) _ => isTrue fun _ hq => absurd hq nofun
  | .call (.submit _ _ (some q) _ _) _ =>
    decidable_of_iff (c.count (ExecutorPc.gives q) = 0)
      ⟨fun h _ hq => Option.some.inj hq ▸ h, fun h => h q rfl⟩
  | .call .delete _ => inferInstanceAs (Decidable (_ ∧ _))
  | .call (.shutdown _) _ => isTrue trivial
  | .call .waitForAll _ => isTrue trivial
  | .step _ _ => isTrue trivial
  | .wake _ => isTrue trivial

/-- `delete_executor` is called after `shutdown_executor` returned to its first caller. -/
def DeletesShutDown (c : ExecutorConfig) : Act ExecutorCall Env → Prop
  | .call .delete _ => 0 < c.count ExecutorPc.isShutDown
  | _ => True

instance (c : ExecutorConfig) : ∀ a, Decidable (DeletesShutDown c a)
  | .call .delete _ => inferInstanceAs (Decidable (_ < _))
  | .call (.submit _ _ _ _ _) _ => isTrue trivial
  | .call (.shutdown _) _ => isTrue trivial
  | .call .waitForAll _ => isTrue trivial
  | .step _ _ => isTrue trivial
  | .wake _ => isTrue trivial

/-! ## What a thread keeps -/

section Move

variable {s s' : ExecutorState} {t : ℕ} {o : Env} {pc pc' : ExecutorPc} {new : List ExecutorPc}

/-- A thread keeps the job it submits. -/
theorem ExecutorMove.params (h : ExecutorMove s t o pc s' pc' new) : pc'.params? = pc.params? := by
  cases h with
  | createWorkerAdmit k _ => cases k <;> rfl
  | createWorkerRefuse k _ => cases k <;> rfl
  | startWorkerFail k _ => cases k <;> rfl
  | startWorkerSpawn k _ _ => cases k <;> rfl
  | settleWorkerError k => cases k <;> rfl
  | settleWorkerAdded k => cases k <;> rfl
  | pushWait _ _ _ _ _ hat _ _ => cases hat <;> rfl
  | pushRefuse _ _ _ _ _ hat _ => cases hat <;> rfl
  | pushAcceptFixed _ _ _ _ _ _ hat _ _ _ => cases hat <;> rfl
  | pushAcceptCached _ _ _ _ _ _ hat _ _ _ => cases hat <;> rfl
  | drainWait _ _ _ hat _ => cases hat <;> rfl
  | drainReturn _ _ hat _ => cases hat <;> rfl
  | drainDiscard _ _ hat _ => cases hat <;> rfl
  | discardDone k _ => cases k <;> rfl
  | awaitWait _ _ hat _ => cases hat <;> rfl
  | awaitPass _ k hat _ => cases hat <;> cases k <;> rfl
  | popWait _ _ _ _ _ hat _ _ _ _ => cases hat <;> rfl
  | popNull _ _ _ _ _ hat _ _ _ => cases hat <;> rfl
  | popJob _ _ _ _ _ _ _ _ hat _ _ => cases hat <;> rfl
  | _ => rfl

theorem ExecutorMove.gives (h : ExecutorMove s t o pc s' pc' new) (q : ℕ) :
    pc'.gives q = pc.gives q := by
  simp only [ExecutorPc.gives, h.params]

theorem ExecutorMove.isDeleting (h : ExecutorMove s t o pc s' pc' new) :
    pc'.isDeleting = pc.isDeleting := by
  cases h with
  | createWorkerRefuse k _ => cases k <;> rfl
  | settleWorkerError k => cases k <;> rfl
  | settleWorkerAdded k => cases k <;> rfl
  | pushWait _ _ _ _ _ hat _ _ => cases hat <;> rfl
  | pushRefuse _ _ _ _ _ hat _ => cases hat <;> rfl
  | pushAcceptFixed _ _ _ _ _ _ hat _ _ _ => cases hat <;> rfl
  | pushAcceptCached _ _ _ _ _ _ hat _ _ _ => cases hat <;> rfl
  | drainWait _ _ _ hat _ => cases hat <;> rfl
  | drainReturn _ _ hat _ => cases hat <;> rfl
  | drainDiscard _ _ hat _ => cases hat <;> rfl
  | discardDone k _ => cases k <;> rfl
  | discardMore k _ => cases k <;> rfl
  | discardNull k _ _ _ => cases k <;> rfl
  | discardJob k _ _ _ _ _ _ => cases k <;> rfl
  | discardCancel k _ => cases k <;> rfl
  | waitRefuse k _ _ _ => cases k <;> rfl
  | waitAdmit k _ _ _ => cases k <;> rfl
  | awaitWait _ k hat _ => cases hat <;> cases k <;> rfl
  | awaitPass _ k hat _ => cases hat <;> cases k <;> rfl
  | popWait _ _ _ _ _ hat _ _ _ _ => cases hat <;> rfl
  | popNull _ _ _ _ _ hat _ _ _ => cases hat <;> rfl
  | popJob _ _ _ _ _ _ _ _ hat _ _ => cases hat <;> rfl
  | _ => rfl

/-- A call that returned takes no step. -/
theorem executorStep_returned (h : executorStep s t pc o = some (s', pc', new)) :
    pc.isShutDown = false := by
  cases pc with
  | returned r => cases h
  | _ => rfl

/-- Whoever finds no worker in a deletion keeps to have found none. -/
theorem ExecutorMove.deletes (h : ExecutorMove s t o pc s' pc' new) (hpc' : pc'.deletes = true) :
    pc.deletes = true ∨
      (AwaitAt s t .delete pc ∧ s.activeWorkerCount = 0 ∧ s' = s) := by
  cases h with
  | createWorkerRefuse k _ => cases k <;> cases hpc'
  | settleWorkerError k => cases k <;> cases hpc'
  | settleWorkerAdded k => cases k <;> cases hpc'
  | discardDone k _ =>
    cases k with
    | shutdown => cases hpc'
    | delete => exact .inl rfl
  | discardMore k _ => cases k <;> exact .inl hpc'
  | discardNull k _ _ _ => cases k <;> exact .inl hpc'
  | discardJob k _ _ _ _ _ _ => cases k <;> exact .inl hpc'
  | discardCancel k _ => cases k <;> exact .inl hpc'
  | waitRefuse k _ _ _ => cases k <;> cases hpc'
  | awaitPass _ k hat hzero =>
    cases k with
    | waitForAll => cases hpc'
    | delete => exact .inr ⟨hat, hzero, rfl⟩
  | _ => cases hpc'

/-- A deletion returns 1 with an empty queue. -/
theorem ExecutorMove.isDeleted (h : ExecutorMove s t o pc s' pc' new)
    (hpc' : pc'.isDeleted = true) :
    pc.deletes = true ∧ s.jobQ.channel.contents = [] ∧ s' = s := by
  cases h with
  | createWorkerRefuse k _ => cases k <;> cases hpc'
  | settleWorkerError k => cases k <;> cases hpc'
  | settleWorkerAdded k => cases k <;> cases hpc'
  | discardDone k hnil =>
    cases k with
    | shutdown => cases hpc'
    | delete => exact ⟨rfl, hnil, rfl⟩
  | waitRefuse k _ _ _ => cases k <;> cases hpc'
  | awaitPass _ k hat _ => cases k <;> cases hpc'
  | _ => cases hpc'

end Move

/-! ## Invariants -/

/-- A job is named by the thread that submits it. -/
def JobsNamed (c : ExecutorConfig) : Prop :=
  ∀ t pc, c.pc? t = some pc → ∀ p ∈ pc.params?, p.name = t

/-- What holds of an executor however it is used. -/
structure LifeInv (c : ExecutorConfig) : Prop where
  inv : ExecutorInv c
  phases : Phases c
  jobs : JobsInv c
  names : JobsNamed c

/-- A deletion comes after the first shutdown returned: it finds neither workers nor
    submitters, and returns with an empty queue. -/
structure DeletionInv (c : ExecutorConfig) : Prop where
  shutDown : 0 < c.count ExecutorPc.isDeleting → 0 < c.count ExecutorPc.isShutDown
  deletes : System.After ExecutorPc.deletes Quiescent c
  deleted : System.After ExecutorPc.isDeleted Emptied c

/-- Each promise is given once, and there is at most one deletion. -/
structure UseInv (c : ExecutorConfig) : Prop where
  given : ∀ q, c.count (ExecutorPc.gives q) ≤ 1
  once : c.count ExecutorPc.isDeleting ≤ 1

variable {c c' : ExecutorConfig} {a : Act ExecutorCall Env}

theorem JobsNamed.next (hc : JobsNamed c) (h : executorSystem.next c a = some c') :
    JobsNamed c' := by
  intro t pc' hpc' p hp
  by_cases hold : c.pc? t = some pc'
  · exact hc t pc' hold p hp
  · obtain ⟨pc, o, new, hpc, hs⟩ | ⟨u, pc, o, s, pc₁, new, hs, hmem⟩ :=
      System.next_moved h hpc' hold
    · rw [(executorStep_move hs).params] at hp
      obtain ⟨-, hpc⟩ | ⟨k, -, rfl, rfl⟩ := hpc
      · exact hc t pc hpc p hp
      · cases k with
        | submit f i q cb timeout => cases hp; rfl
        | _ => cases hp
    · rw [(executorStep_move hs).new_eq pc' hmem] at hp
      cases hp

theorem LifeInv.next (hc : LifeInv c) (h : executorSystem.next c a = some c') : LifeInv c' where
  inv := hc.inv.next h
  phases := hc.phases.next hc.inv h
  jobs := hc.jobs.next h
  names := hc.names.next h

theorem ExecutorState.Initial.life {s : ExecutorState} (hs : s.Initial) :
    LifeInv (executorInit s) where
  inv := hs.inv
  phases := hs.phases
  jobs := hs.jobs
  names t pc hpc p hp := by
    obtain ⟨rfl, rfl⟩ := executorInit_pc hpc
    cases hp

theorem executor_life {s : ExecutorState} (hs : s.Initial)
    {ok : ExecutorConfig → Act ExecutorCall Env → Prop}
    (h : executorSystem.Reach ok (executorInit s) c) : LifeInv c :=
  h.invariant hs.life fun _ _ _ _ hc _ hn => hc.next hn

theorem ExecutorPc.eq_of_isShutDown {pc : ExecutorPc} (h : pc.isShutDown = true) :
    ∃ imm, pc = .returned (.shutdown true imm) := by
  cases pc with
  | returned r =>
    cases r with
    | shutdown first imm => cases first <;> [cases h; exact ⟨imm, rfl⟩]
    | _ => cases h
  | _ => cases h

/-- Once a shutdown returned to its first caller, the queue is drained. -/
theorem Phases.drained_of_shutDown (hphases : Phases c) (h : 0 < c.count ExecutorPc.isShutDown) :
    Drained c.shared := by
  obtain ⟨t, pc, hpc, hp⟩ := Config.exists_of_count_pos h
  obtain ⟨imm, rfl⟩ := ExecutorPc.eq_of_isShutDown hp
  exact hphases.drained t _ hpc rfl

theorem isShutDown_le_next (h : executorSystem.next c a = some c') :
    c.count ExecutorPc.isShutDown ≤ c'.count ExecutorPc.isShutDown := by
  refine System.count_le_next ?_ h
  intro s t pc o s' pc' new hs hp
  rw [executorStep_returned hs] at hp
  cases hp

theorem isDeleting_next (h : executorSystem.next c a = some c') :
    c'.count ExecutorPc.isDeleting =
      c.count ExecutorPc.isDeleting + System.marked executorSystem ExecutorPc.isDeleting c a :=
  System.count_next (fun hs => (executorStep_move hs).isDeleting) (newWorker_of_step rfl) h

theorem ExecutorPc.isDeleting_of_deletes {pc : ExecutorPc} (h : pc.deletes = true) :
    pc.isDeleting = true := by
  cases pc with
  | discardTest k => cases k <;> [cases h; rfl]
  | discardPop k => cases k <;> [cases h; rfl]
  | discardCancel k j => cases k <;> [cases h; rfl]
  | returned r =>
    cases r with
    | wait k b => cases k <;> [cases h; rfl]
    | _ => cases h
  | _ => cases h

theorem DeletionInv.next (hc : DeletionInv c) (hinv : ExecutorInv c) (hphases : Phases c)
    (hok : DeletesShutDown c a) (h : executorSystem.next c a = some c') : DeletionInv c' := by
  refine ⟨?_, ?_, ?_⟩
  · intro hpos
    refine Nat.lt_of_lt_of_le ?_ (isShutDown_le_next h)
    rw [isDeleting_next h] at hpos
    cases a with
    | call k o =>
      cases k with
      | delete => exact hok
      | _ => exact hc.shutDown hpos
    | _ => exact hc.shutDown hpos
  · refine hc.deletes.next h (fun t k => by cases k <;> rfl) (newWorker_of_step rfl)
      (quiescent_next hinv hphases h) ?_
    intro t pc o pc' new hpc hs _ hdone hp
    obtain hbefore | ⟨hat, hzero, hshared⟩ := (executorStep_move hs).deletes hp
    · exact quiescent_next hinv hphases h (hdone hbefore)
    · obtain ⟨-, hpc⟩ | ⟨k, -, rfl⟩ := hpc
      · have hpos := Config.count_pos (p := ExecutorPc.isDeleting) hpc (by cases hat <;> rfl)
        have hdrained := hphases.drained_of_shutDown (hc.shutDown hpos)
        rw [hshared]
        exact ⟨hdrained.requested, hzero, hdrained.submitters⟩
      · cases k <;> cases hat
  · refine hc.deleted.next h (fun t k => by cases k <;> rfl) (newWorker_of_step rfl)
      (emptied_next h) ?_
    intro t pc o pc' new hpc hs _ _ hp
    obtain ⟨hdone, hnil, hshared⟩ := (executorStep_move hs).isDeleted hp
    obtain ⟨-, hpc⟩ | ⟨k, -, rfl⟩ := hpc
    · have hpos := Config.count_pos hpc (ExecutorPc.isDeleting_of_deletes hdone)
      rw [hshared]
      exact ⟨hphases.drained_of_shutDown (hc.shutDown hpos), hnil⟩
    · cases k <;> cases hdone

theorem deletion_init (s : ExecutorState) : DeletionInv (executorInit s) where
  shutDown hpos := absurd hpos (Nat.lt_irrefl 0)
  deletes t pc hpc hp := by
    obtain ⟨rfl, rfl⟩ := executorInit_pc hpc
    cases hp
  deleted t pc hpc hp := by
    obtain ⟨rfl, rfl⟩ := executorInit_pc hpc
    cases hp

theorem ProperUse.deletesShutDown (h : ProperUse c a) : DeletesShutDown c a := by
  cases a with
  | call k o =>
    cases k with
    | delete => exact h.2
    | _ => exact trivial
  | _ => exact trivial

theorem marked_gives (hok : ProperUse c a) (q : ℕ) (hc : c.count (ExecutorPc.gives q) ≤ 1) :
    c.count (ExecutorPc.gives q) + System.marked executorSystem (ExecutorPc.gives q) c a ≤ 1 := by
  cases a with
  | call k o =>
    cases k with
    | submit f i promise cb timeout =>
      by_cases hq : promise = some q
      · have hzero : c.count (ExecutorPc.gives q) = 0 := hok q hq
        rw [hzero, Nat.zero_add]
        exact Bool.toNat_le _
      · have hstart : (executorSystem.start c.threads.length
            (.submit f i promise cb timeout)).gives q = false := decide_eq_false hq
        rw [System.marked, hstart]
        exact hc
    | _ => exact hc
  | _ => exact hc

theorem marked_isDeleting (hok : ProperUse c a) (hc : c.count ExecutorPc.isDeleting ≤ 1) :
    c.count ExecutorPc.isDeleting + System.marked executorSystem ExecutorPc.isDeleting c a ≤ 1 := by
  cases a with
  | call k o =>
    cases k with
    | delete =>
      rw [hok.1, Nat.zero_add]
      exact Bool.toNat_le _
    | _ => exact hc
  | _ => exact hc

theorem UseInv.next (hc : UseInv c) (hok : ProperUse c a)
    (h : executorSystem.next c a = some c') : UseInv c' where
  given q := by
    rw [System.count_next (fun hs => (executorStep_move hs).gives q) (newWorker_of_step rfl) h]
    exact marked_gives hok q (hc.given q)
  once := by
    rw [isDeleting_next h]
    exact marked_isDeleting hok hc.once

/-- What proper use of an executor keeps. -/
structure FateInv (c : ExecutorConfig) : Prop extends LifeInv c where
  deletion : DeletionInv c
  proper : UseInv c

theorem executor_fate {s : ExecutorState} (hs : s.Initial)
    (h : executorSystem.Reach ProperUse (executorInit s) c) : FateInv c := by
  refine h.invariant ⟨hs.life, deletion_init s, ⟨fun _ => Nat.zero_le 1, Nat.zero_le 1⟩⟩ ?_
  intro c a c' _ hc hok hn
  exact ⟨hc.toLifeInv.next hn, hc.deletion.next hc.inv hc.phases hok.deletesShutDown hn,
    hc.proper.next hok hn⟩

/-! ## Who ends which job -/

theorem ExecutorPc.params_of_submitted {pc : ExecutorPc} {p : JobParams}
    (h : pc.submitted p = true) : p ∈ pc.params? := by
  have hqueued : ∀ {b : Bool} {p' : JobParams}, (b && decide (p' = p)) = true → p ∈ some p' :=
    fun hb => congrArg some (of_decide_eq_true (Bool.and_eq_true_iff.mp hb).2)
  cases pc with
  | readWaiting p' => exact congrArg some (of_decide_eq_true h)
  | readEmpty p' => exact congrArg some (of_decide_eq_true h)
  | createWorker k => cases k <;> [cases h; exact congrArg some (of_decide_eq_true h)]
  | startWorker k => cases k <;> [cases h; exact congrArg some (of_decide_eq_true h)]
  | settleWorker k b => cases k <;> [cases h; exact congrArg some (of_decide_eq_true h)]
  | leaveSubmit p' b => exact hqueued h
  | returned r =>
    cases r with
    | submit p' b => exact hqueued h
    | _ => cases h
  | _ => cases h

/-- Only the thread that submits a job accounts for its push. -/
theorem LifeInv.queued_eq (hc : LifeInv c) {t : ℕ} {pc : ExecutorPc} (hpc : c.pc? t = some pc)
    {p : JobParams} (hp : p ∈ pc.params?) :
    c.shared.log.count (.queued p) = (pc.submitted p).toNat := by
  have hown : ∀ u pc', c.pc? u = some pc' → pc'.submitted p = true → u = t := by
    intro u pc' hu hp'
    have hname := hc.names u pc' hu p (ExecutorPc.params_of_submitted hp')
    rw [← hname, hc.names t pc hpc p hp]
  rw [← hc.jobs.submitted p]
  cases hsub : pc.submitted p with
  | true => exact Nat.le_antisymm (Config.count_le_one hown) (Config.count_pos hpc hsub)
  | false =>
    refine Config.count_eq_zero.mpr fun u pc' hu => ?_
    by_contra hp'
    rw [Bool.not_eq_false] at hp'
    obtain rfl := hown u pc' hu hp'
    rw [hpc] at hu
    cases hu
    rw [hsub] at hp'
    cases hp'

/-- A job that ended was submitted by some call. -/
theorem LifeInv.submitter_of_finished (hc : LifeInv c) {p : JobParams}
    (h : 0 < c.shared.finished p) : ∃ t pc, c.pc? t = some pc ∧ p ∈ pc.params? := by
  have htokens := hc.jobs.tokens p
  have hsubmitted := hc.jobs.submitted p
  have hpos : 0 < c.count (ExecutorPc.submitted p) := by omega
  obtain ⟨t, pc, hpc, hp⟩ := Config.exists_of_count_pos hpos
  exact ⟨t, pc, hpc, ExecutorPc.params_of_submitted hp⟩

/-- A promise is set by the end of no job but the one it was given to. -/
theorem FateInv.finishes (hc : FateInv c) {t : ℕ} {pc : ExecutorPc} (hpc : c.pc? t = some pc)
    {p : JobParams} (hp : p ∈ pc.params?) {q : ℕ} (hq : p.promiseForOutput = some q) :
    ∀ e ∈ c.shared.log, (ExecutorEvent.finishes q e).isSome = true →
      ExecutorEvent.outputs p e = true ∨ ExecutorEvent.cancels p e = true := by
  have hgives : ∀ {pc' : ExecutorPc} {p' : JobParams}, p' ∈ pc'.params? →
      p'.promiseForOutput = some q → pc'.gives q = true := by
    intro pc' p' hp' hq'
    rw [ExecutorPc.gives, show pc'.params? = some p' from hp']
    exact decide_eq_true hq'
  -- the promise tells the call, and the call tells the job
  have hsole : ∀ p', 0 < c.shared.finished p' → p'.promiseForOutput = some q → p' = p := by
    intro p' hfinished hq'
    obtain ⟨u, pc', hpc', hp'⟩ := hc.submitter_of_finished hfinished
    obtain rfl := Config.eq_of_count_le_one (hc.proper.given q) hpc' hpc (hgives hp' hq')
      (hgives hp hq)
    rw [hpc] at hpc'
    cases hpc'
    exact Option.mem_unique hp' hp
  intro e he hsome
  cases e with
  | output p' v =>
    have hpos : 0 < c.shared.log.countP (ExecutorEvent.outputs p') :=
      List.countP_pos_iff.mpr ⟨_, he, decide_eq_true rfl⟩
    by_cases hq' : p'.promiseForOutput = some q
    · exact .inl (decide_eq_true (hsole p' (Nat.add_pos_left hpos _) hq'))
    · simp [ExecutorEvent.finishes, hq'] at hsome
  | cancelled u p' =>
    have hpos : 0 < c.shared.log.countP (ExecutorEvent.cancels p') :=
      List.countP_pos_iff.mpr ⟨_, he, decide_eq_true rfl⟩
    by_cases hq' : p'.promiseForOutput = some q
    · exact .inr (decide_eq_true (hsole p' (Nat.add_pos_right _ hpos) hq'))
    · simp [ExecutorEvent.finishes, hq'] at hsome
  | _ => cases hsome

theorem length_finishes_le {log : List ExecutorEvent} {p : JobParams} {q : ℕ}
    (h : ∀ e ∈ log, (ExecutorEvent.finishes q e).isSome = true →
      ExecutorEvent.outputs p e = true ∨ ExecutorEvent.cancels p e = true) :
    (log.filterMap (ExecutorEvent.finishes q)).length ≤
      log.countP (ExecutorEvent.outputs p) + log.countP (ExecutorEvent.cancels p) := by
  induction log with
  | nil => exact Nat.le_refl 0
  | cons e log ih =>
    obtain ⟨he, hlog⟩ := List.forall_mem_cons.mp h
    have hle := ih hlog
    simp only [List.filterMap_cons, List.countP_cons]
    cases hf : ExecutorEvent.finishes q e with
    | none =>
      dsimp only
      omega
    | some v =>
      obtain hout | hcancel := he (by rw [hf]; rfl)
      · simp only [hout, if_true, List.length_cons]
        omega
      · simp only [hcancel, if_true, List.length_cons]
        omega

/-- When a deletion has returned 1, nobody holds a job. -/
theorem FateInv.holds_eq_false (hc : FateInv c) {d : ℕ}
    (hd : c.pc? d = some (.returned (.wait .delete true))) {t : ℕ} {pc : ExecutorPc}
    (hpc : c.pc? t = some pc) (p : JobParams) : pc.holds p = false := by
  have hidle := hc.inv.idle (hc.deletion.deletes d _ hd rfl).workers hpc
  cases pc with
  | workerRun j => cases hidle
  | workerBusy p' => cases hidle
  | discardCancel k j =>
    cases k with
    | delete =>
      -- there is one deletion, and it has returned
      obtain rfl := Config.eq_of_count_le_one hc.proper.once hpc hd rfl rfl
      rw [hpc] at hd
      cases hd
    | shutdown =>
      -- there is one first shutdown, and it has returned
      have hshut := hc.deletion.shutDown (Config.count_pos hd rfl)
      obtain ⟨u, pc', hpc', hp'⟩ := Config.exists_of_count_pos hshut
      obtain ⟨imm, rfl⟩ := ExecutorPc.eq_of_isShutDown hp'
      obtain rfl := hc.inv.firstShutdown_unique hpc hpc' rfl rfl
      rw [hpc] at hpc'
      cases hpc'
  | _ => rfl

/-! ## Fates -/

/-- How often a job was invoked and cancelled, its callback with each cancellation,
    and what its promise was set to, if it was. -/
structure Fate (s : ExecutorState) (p : JobParams) (invocations cancellations : ℕ)
    (result : Option Ptr) : Prop where
  invoked : s.log.count (.invoked p) = invocations
  cancelled : s.log.countP (ExecutorEvent.cancels p) = cancellations
  callback : s.log.count (.cancellationCallback p) =
    if p.cancellationCallback = none then 0 else cancellations
  promise : ∀ q, p.promiseForOutput = some q →
    s.log.filterMap (ExecutorEvent.sets q) = result.toList ∧ (s.promises q).result? = result

/-- The job was executed, and its promise set to what its function returned. -/
def Executed (s : ExecutorState) (p : JobParams) : Prop :=
  ∃ v, .output p v ∈ s.log ∧ Fate s p 1 0 (some v)

/-- The job was cancelled, and its promise set to NULL. -/
def Cancelled (s : ExecutorState) (p : JobParams) : Prop := Fate s p 0 1 (some none)

/-- Nothing ever happened to the job. -/
def Untouched (s : ExecutorState) (p : JobParams) : Prop := Fate s p 0 0 none

theorem FateInv.fate (hc : FateInv c) {p : JobParams} {outputs cancellations : ℕ}
    {result : Option Ptr} (hidle : c.count (ExecutorPc.executes p) = 0)
    (hout : c.shared.log.countP (ExecutorEvent.outputs p) = outputs)
    (hcancel : c.shared.log.countP (ExecutorEvent.cancels p) = cancellations)
    (hresult : ∀ q, p.promiseForOutput = some q →
      c.shared.log.filterMap (ExecutorEvent.finishes q) = result.toList) :
    Fate c.shared p outputs cancellations result where
  invoked := by rw [← hc.jobs.invoked p, hidle, hout, Nat.zero_add]
  cancelled := hcancel
  callback := by rw [hc.jobs.log.callbacks p, hcancel]
  promise q hq := by
    rw [hc.jobs.log.sets q, hc.jobs.log.result q, hresult q hq]
    cases result with
    | none => exact ⟨rfl, rfl⟩
    | some v => exact ⟨rfl, rfl⟩

theorem eq_singleton_of_mem {α : Type*} {l : List α} {x : α} (hmem : x ∈ l)
    (hlen : l.length ≤ 1) : l = [x] := by
  have hone : l.length = 1 := Nat.le_antisymm hlen (List.length_pos_of_mem hmem)
  obtain ⟨y, rfl⟩ := List.length_eq_one_iff.mp hone
  rw [List.mem_singleton.mp hmem]

theorem ExecutorPc.executes_of_holds {pc : ExecutorPc} {p : JobParams} (h : pc.holds p = false) :
    pc.executes p = false := by
  cases pc with
  | workerBusy p' => exact h
  | _ => rfl

/-- A submission that failed left nothing behind. -/
theorem FateInv.untouched (hc : FateInv c) {t : ℕ} {p : JobParams}
    (hpc : c.pc? t = some (.returned (.submit p false))) : Untouched c.shared p := by
  have hqueued : c.shared.log.count (.queued p) = 0 := hc.queued_eq hpc rfl
  have htokens := hc.jobs.tokens p
  have hholds : c.count (ExecutorPc.holds p) = 0 := by omega
  have hfinished : c.shared.finished p = 0 := by omega
  obtain ⟨hout, hcancel⟩ := Nat.add_eq_zero_iff.mp hfinished
  refine hc.fate ?_ hout hcancel ?_
  · refine Config.count_eq_zero.mpr fun u pc hu => ?_
    exact ExecutorPc.executes_of_holds (Config.count_eq_zero.mp hholds u pc hu)
  · intro q hq
    have hle := length_finishes_le (hc.finishes hpc rfl hq)
    rw [hout, hcancel] at hle
    exact List.length_eq_zero_iff.mp (Nat.le_zero.mp hle)

/-- A submission that succeeded has its job at an end once a deletion returned 1. -/
theorem FateInv.finished_eq (hc : FateInv c) {d t : ℕ} {p : JobParams}
    (hd : c.pc? d = some (.returned (.wait .delete true)))
    (hpc : c.pc? t = some (.returned (.submit p true))) : c.shared.finished p = 1 := by
  have hqueued : c.shared.log.count (.queued p) = 1 := by
    rw [hc.queued_eq hpc rfl]
    exact congrArg Bool.toNat (decide_eq_true rfl)
  have hholds : c.count (ExecutorPc.holds p) = 0 :=
    Config.count_eq_zero.mpr fun u pc hu => hc.holds_eq_false hd hu p
  have hempty : c.shared.inQueue p = 0 := by
    rw [ExecutorState.inQueue, (hc.deletion.deleted d _ hd rfl).contents]
    rfl
  have htokens := hc.jobs.tokens p
  omega

theorem FateInv.executed_or_cancelled (hc : FateInv c) {d t : ℕ} {p : JobParams}
    (hd : c.pc? d = some (.returned (.wait .delete true)))
    (hpc : c.pc? t = some (.returned (.submit p true))) :
    Executed c.shared p ∨ Cancelled c.shared p := by
  have hidle : c.count (ExecutorPc.executes p) = 0 :=
    Config.count_eq_zero.mpr fun u pc hu =>
      ExecutorPc.executes_of_holds (hc.holds_eq_false hd hu p)
  have hone : c.shared.log.countP (ExecutorEvent.outputs p) +
      c.shared.log.countP (ExecutorEvent.cancels p) = 1 := hc.finished_eq hd hpc
  have hlen : ∀ q, p.promiseForOutput = some q →
      (c.shared.log.filterMap (ExecutorEvent.finishes q)).length ≤ 1 := fun q hq =>
    (length_finishes_le (hc.finishes hpc rfl hq)).trans_eq hone
  obtain ⟨hout, hcancel⟩ | ⟨hout, hcancel⟩ := Nat.add_eq_one_iff.mp hone
  · right
    refine hc.fate hidle hout hcancel fun q hq => ?_
    have hpos : 0 < c.shared.log.countP (ExecutorEvent.cancels p) := by omega
    obtain ⟨e, he, hp⟩ := List.countP_pos_iff.mp hpos
    cases e with
    | cancelled u p' =>
      obtain rfl : p' = p := of_decide_eq_true hp
      refine eq_singleton_of_mem (List.mem_filterMap.mpr ⟨_, he, ?_⟩) (hlen q hq)
      exact if_pos hq
    | _ => cases hp
  · left
    have hpos : 0 < c.shared.log.countP (ExecutorEvent.outputs p) := by omega
    obtain ⟨e, he, hp⟩ := List.countP_pos_iff.mp hpos
    cases e with
    | output p' v =>
      obtain rfl : p' = p := of_decide_eq_true hp
      refine ⟨v, he, hc.fate hidle hout hcancel fun q hq => ?_⟩
      refine eq_singleton_of_mem (List.mem_filterMap.mpr ⟨_, he, ?_⟩) (hlen q hq)
      exact if_pos hq
    | _ => cases hp

/-- Under proper use a refused job is never touched, and when `delete_executor`
    has returned 1 each accepted job was executed once or cancelled once. -/
theorem job_fates {type : ExecutorType} {limit : ℕ} {cap : WithTop ℕ} {timeout : ℕ}
    {allocated : Bool} {s : ExecutorState}
    (hnew : ExecutorState.new type limit cap timeout allocated = some s)
    (h : executorSystem.Reach ProperUse (executorInit s) c) :
    (∀ t p, c.pc? t = some (.returned (.submit p false)) → Untouched c.shared p) ∧
    ∀ d, c.pc? d = some (.returned (.wait .delete true)) →
      ∀ t p, c.pc? t = some (.returned (.submit p true)) →
        Executed c.shared p ∨ Cancelled c.shared p := by
  have hc := executor_fate (ExecutorState.initial_of_new hnew) h
  exact ⟨fun _ _ => hc.untouched, fun _ hd _ _ => hc.executed_or_cancelled hd⟩

/-- The worker executes the first job, an immediate shutdown cancels the second,
    the third is refused, and the executor is deleted. -/
def deletedPool : ExecutorConfig :=
  executorSystem.checkedRun ProperUse (executorInit cachedPool)
    ([.step 0 (.smooth none),
        .call (.submit (some 0) none (some 7) none blocking) (.smooth none)] ++
      List.replicate 7 (.step 1 (.smooth none)) ++
      [.step 2 (.smooth none), .step 2 (.smooth none),
        .call (.submit (some 0) none (some 8) (some 1) blocking) (.smooth none)] ++
      List.replicate 5 (.step 3 (.smooth none)) ++ [.call (.shutdown true) (.smooth none)] ++
      List.replicate 5 (.step 4 (.smooth none)) ++
      [.call (.submit (some 0) none (some 9) none blocking) (.smooth none)] ++
      List.replicate 3 (.step 2 (.smooth (some 3))) ++
      [.call .delete (.smooth none), .step 6 (.smooth none), .step 6 (.smooth none)]) (by decide)

theorem job_fates_deletedPool :
    Untouched deletedPool.shared ⟨5, some 0, none, some 9, none⟩ ∧
      (Executed deletedPool.shared ⟨1, some 0, none, some 7, none⟩ ∨
        Cancelled deletedPool.shared ⟨1, some 0, none, some 7, none⟩) ∧
      (Executed deletedPool.shared ⟨3, some 0, none, some 8, some 1⟩ ∨
        Cancelled deletedPool.shared ⟨3, some 0, none, some 8, some 1⟩) :=
  have h := job_fates (Option.some_get _).symm (.checkedRun _ _ _ _)
  ⟨h.1 5 _ (by decide), h.2 6 (by decide) 1 _ (by decide), h.2 6 (by decide) 3 _ (by decide)⟩

end BoomPar
