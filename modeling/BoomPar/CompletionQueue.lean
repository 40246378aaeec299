-- SUMMARY: Promises whose callbacks push them to queues: every completed promise is handed over once, to its own queue.
import BoomPar.PromiseThreads
import BoomPar.QueueFifo

/-!
# Completion queues

The callback of `promise_completion_default_callback.c` pushes the completed
promise to a `sync_queue`, whoever completes it: the thread that sets the result,
or the one that sets the callback. Any number of promises and of queues are in
use. A queue holds promises, here their numbers; a callback is known by the address
of its object.
-/

namespace BoomPar

open Monitor

/-- A `promise_completion_callback` whose function pushes to the queue `callback_param`. -/
structure PushCallback where
  callbackParam : ℕ

def pushToSyncQueueOnPromiseCompletionCallback (sq : ℕ) : PushCallback := ⟨sq⟩

/-- What the callback function calls on its queue; it does not look at the result. -/
def pushToSyncQueueOnPromiseCompletionCallbackFunction (p : ℕ) : QueueCall ℕ := .push p blocking

/-- The promises and the queues. -/
structure CompletionState where
  promises : ℕ → PromiseState
  queues : ℕ → QueueState ℕ

/-- A call on a promise, or on a queue. -/
inductive CompletionCall where
  | promise (p : ℕ) (k : PromiseCall)
  | queue (sq : ℕ) (k : QueueCall ℕ)

inductive CompletionPc where
  | promise (p : ℕ) (pc : PromisePc)
  /-- In the callback of promise `p`, at its push to `sq`; the call on the promise
      returns `r` with it. -/
  | callback (p sq : ℕ) (r : PromiseResult) (pc : QueuePc ℕ)
  | queue (sq : ℕ) (pc : QueuePc ℕ)
  deriving DecidableEq

abbrev CompletionConfig := Config CompletionState CompletionPc

def CompletionCall.start : CompletionCall → CompletionPc
  | .promise p k => .promise p k.start
  | .queue sq k => .queue sq (.called k)

namespace CompletionState

def setPromise (s : CompletionState) (p : ℕ) (ps : PromiseState) : CompletionState :=
  { s with promises := Function.update s.promises p ps }

def setQueue (s : CompletionState) (sq : ℕ) (qs : QueueState ℕ) : CompletionState :=
  { s with queues := Function.update s.queues sq qs }

/-- The callback of a promise is called. -/
def invoke (s : CompletionState) (p pcc : ℕ) : CompletionState :=
  s.setPromise p { s.promises p with invoked := (s.promises p).invoked ++ [pcc] }

@[simp] theorem setPromise_queues (s : CompletionState) (p : ℕ) (ps : PromiseState) :
    (s.setPromise p ps).queues = s.queues := rfl

@[simp] theorem setPromise_self (s : CompletionState) (p : ℕ) (ps : PromiseState) :
    (s.setPromise p ps).promises p = ps := Function.update_self ..

theorem setPromise_of_ne {p p' : ℕ} (hne : p' ≠ p) (s : CompletionState) (ps : PromiseState) :
    (s.setPromise p ps).promises p' = s.promises p' := Function.update_of_ne hne ..

@[simp] theorem setQueue_promises (s : CompletionState) (sq : ℕ) (qs : QueueState ℕ) :
    (s.setQueue sq qs).promises = s.promises := rfl

@[simp] theorem setQueue_self (s : CompletionState) (sq : ℕ) (qs : QueueState ℕ) :
    (s.setQueue sq qs).queues sq = qs := Function.update_self ..

theorem setQueue_of_ne {sq sq' : ℕ} (hne : sq' ≠ sq) (s : CompletionState) (qs : QueueState ℕ) :
    (s.setQueue sq qs).queues sq' = s.queues sq' := Function.update_of_ne hne ..

@[simp] theorem invoke_queues (s : CompletionState) (p pcc : ℕ) :
    (s.invoke p pcc).queues = s.queues := rfl

@[simp] theorem invoke_promise (s : CompletionState) (p pcc p' : ℕ) :
    ((s.invoke p pcc).promises p').promise = (s.promises p').promise := by
  by_cases hpp : p' = p
  · rw [hpp, invoke, setPromise_self]
  · rw [invoke, setPromise_of_ne hpp]

/-- A thread took a step on promise `p`. -/
def afterPromise (s : CompletionState) (p : ℕ) (r : PromiseState × PromisePc × List PromisePc) :
    CompletionState × CompletionPc × List CompletionPc :=
  (s.setPromise p r.1, .promise p r.2.1, r.2.2.map (.promise p))

/-- A thread took a step on queue `sq`, at the control states `place`. -/
def afterQueue (s : CompletionState) (sq : ℕ) (place : QueuePc ℕ → CompletionPc)
    (r : QueueState ℕ × QueuePc ℕ × List (QueuePc ℕ)) :
    CompletionState × CompletionPc × List CompletionPc :=
  (s.setQueue sq r.1, place r.2.1, r.2.2.map place)

end CompletionState

section System

variable (callbacks : ℕ → PushCallback)

/-- One section of thread `t`. The callback runs without the lock of its promise, and
    begins with the first section of its push. -/
def completionStep (s : CompletionState) (t : ℕ) :
    CompletionPc → Outcome → Option (CompletionState × CompletionPc × List CompletionPc)
  | .promise p (.callback pcc r), o =>
    let sq := (callbacks pcc).callbackParam
    (queueStep (s.queues sq) t
      (.called (pushToSyncQueueOnPromiseCompletionCallbackFunction p)) o).map
        ((s.invoke p pcc).afterQueue sq (.callback p sq r))
  | .promise p pc, _ => (promiseStep (s.promises p) t pc ()).map (s.afterPromise p)
  | .callback p sq r pc, o =>
    (queueStep (s.queues sq) t pc o).map (s.afterQueue sq (.callback p sq r))
  | .queue sq pc, o => (queueStep (s.queues sq) t pc o).map (s.afterQueue sq (.queue sq))

/-- A blocked thread wakes by its timeout or spuriously. -/
def completionWake (s : CompletionState) (t : ℕ) : CompletionPc → Option CompletionState
  | .promise p pc => (promiseWake (s.promises p) t pc).map (s.setPromise p)
  | .callback _ sq _ pc => (queueWake (s.queues sq) t pc).map (s.setQueue sq)
  | .queue sq pc => (queueWake (s.queues sq) t pc).map (s.setQueue sq)

/-- The clients of the promises and the queues, which know the objects `callbacks`. -/
def completionSystem : System CompletionState CompletionPc CompletionCall Outcome where
  start _ := CompletionCall.start
  step := completionStep callbacks
  wake := completionWake

/-- Nothing has been used yet; queue `sq` has the limit `maxCapacity sq`. -/
def completionInit (maxCapacity : ℕ → WithTop ℕ) : CompletionConfig :=
  ⟨⟨fun _ => ⟨.init, []⟩, fun sq => ⟨.arraylist (.init (maxCapacity sq)), [], []⟩⟩, []⟩

/-- The configurations that any interleaving of any calls leads to. -/
def CompletionReach (maxCapacity : ℕ → WithTop ℕ) : CompletionConfig → Prop :=
  (completionSystem callbacks).Reach (fun _ _ => True) (completionInit maxCapacity)

end System

/-! ## Moves -/

/-- One case for each object that a section is on. -/
inductive CompletionMove (callbacks : ℕ → PushCallback) (s : CompletionState) (t : ℕ)
    (o : Outcome) : CompletionPc → CompletionState → CompletionPc → Prop
  | promise (p : ℕ) (pc : PromisePc) (ps : PromiseState) (pc' : PromisePc) :
      (∀ pcc r, pc ≠ .callback pcc r) → PromiseMove (s.promises p) t pc ps pc' →
      CompletionMove callbacks s t o (.promise p pc) (s.setPromise p ps) (.promise p pc')
  | invoke (p pcc : ℕ) (r : PromiseResult) (sq : ℕ) (qs : QueueState ℕ) (pc' : QueuePc ℕ) :
      sq = (callbacks pcc).callbackParam →
      queueStep (s.queues sq) t (.called (.push p blocking)) o = some (qs, pc', []) →
      CompletionMove callbacks s t o (.promise p (.callback pcc r))
        ((s.invoke p pcc).setQueue sq qs) (.callback p sq r pc')
  | callback (p sq : ℕ) (r : PromiseResult) (pc : QueuePc ℕ) (qs : QueueState ℕ)
      (pc' : QueuePc ℕ) : queueStep (s.queues sq) t pc o = some (qs, pc', []) →
      CompletionMove callbacks s t o (.callback p sq r pc) (s.setQueue sq qs)
        (.callback p sq r pc')
  | queue (sq : ℕ) (pc : QueuePc ℕ) (qs : QueueState ℕ) (pc' : QueuePc ℕ) :
      queueStep (s.queues sq) t pc o = some (qs, pc', []) →
      CompletionMove callbacks s t o (.queue sq pc) (s.setQueue sq qs) (.queue sq pc')

section Moves

variable {callbacks : ℕ → PushCallback} {s s' : CompletionState} {t : ℕ} {o : Outcome}
  {pc pc' : CompletionPc} {new : List CompletionPc}

theorem afterQueue_cases {s₁ : CompletionState} {sq : ℕ} {qpc : QueuePc ℕ}
    {place : QueuePc ℕ → CompletionPc}
    (h : (queueStep (s.queues sq) t qpc o).map (s₁.afterQueue sq place) = some (s', pc', new)) :
    new = [] ∧ ∃ qs qpc', queueStep (s.queues sq) t qpc o = some (qs, qpc', []) ∧
      s' = s₁.setQueue sq qs ∧ pc' = place qpc' := by
  obtain ⟨⟨qs, qpc', qnew⟩, hq, heq⟩ := Option.map_eq_some_iff.mp h
  obtain ⟨rfl, -⟩ := queueStep_cases hq
  cases heq
  exact ⟨rfl, qs, qpc', hq, rfl, rfl⟩

theorem completionStep_move (h : completionStep callbacks s t pc o = some (s', pc', new)) :
    CompletionMove callbacks s t o pc s' pc' ∧ new = [] := by
  have hpromise : ∀ {p : ℕ} {ppc : PromisePc}, (∀ pcc r, ppc ≠ .callback pcc r) →
      (promiseStep (s.promises p) t ppc ()).map (s.afterPromise p) = some (s', pc', new) →
      CompletionMove callbacks s t o (.promise p ppc) s' pc' ∧ new = [] := by
    intro p ppc hnot h
    obtain ⟨⟨ps, ppc', pnew⟩, hp, heq⟩ := Option.map_eq_some_iff.mp h
    obtain ⟨hmove, rfl⟩ := promiseStep_move hp
    cases heq
    exact ⟨.promise p ppc ps ppc' hnot hmove, rfl⟩
  cases pc with
  | promise p ppc =>
    cases ppc with
    | callback pcc r =>
      have hstep : (queueStep (s.queues (callbacks pcc).callbackParam) t
          (.called (.push p blocking)) o).map ((s.invoke p pcc).afterQueue
            (callbacks pcc).callbackParam (.callback p (callbacks pcc).callbackParam r)) =
          some (s', pc', new) := h
      obtain ⟨rfl, qs, qpc', hq, rfl, rfl⟩ := afterQueue_cases hstep
      exact ⟨.invoke p pcc r _ qs qpc' rfl hq, rfl⟩
    | _ => exact hpromise nofun h
  | callback p sq r qpc =>
    obtain ⟨rfl, qs, qpc', hq, rfl, rfl⟩ := afterQueue_cases h
    exact ⟨.callback p sq r qpc qs qpc' hq, rfl⟩
  | queue sq qpc =>
    obtain ⟨rfl, qs, qpc', hq, rfl, rfl⟩ := afterQueue_cases h
    exact ⟨.queue sq qpc qs qpc' hq, rfl⟩

/-- A wake-up is one on a promise or one on a queue. -/
theorem completionWake_cases (h : completionWake s t pc = some s') :
    (∃ p ppc ps, promiseWake (s.promises p) t ppc = some ps ∧ s' = s.setPromise p ps) ∨
      ∃ sq qpc qs, queueWake (s.queues sq) t qpc = some qs ∧ s' = s.setQueue sq qs := by
  cases pc with
  | promise p ppc =>
    obtain ⟨ps, hp, rfl⟩ := Option.map_eq_some_iff.mp h
    exact .inl ⟨p, ppc, ps, hp, rfl⟩
  | callback p sq r qpc =>
    obtain ⟨qs, hq, rfl⟩ := Option.map_eq_some_iff.mp h
    exact .inr ⟨sq, qpc, qs, hq, rfl⟩
  | queue sq qpc =>
    obtain ⟨qs, hq, rfl⟩ := Option.map_eq_some_iff.mp h
    exact .inr ⟨sq, qpc, qs, hq, rfl⟩

end Moves

/-! ## One queue of them -/

/-- Where a thread is on queue `sq`, if it is on it. -/
def CompletionPc.on? (sq : ℕ) : CompletionPc → Option (QueuePc ℕ)
  | .promise _ _ => none
  | .callback _ sq' _ pc => if sq' = sq then some pc else none
  | .queue sq' pc => if sq' = sq then some pc else none

/-- The queue that the next section of a thread is on, and where the thread enters it. -/
def CompletionPc.enters? (callbacks : ℕ → PushCallback) : CompletionPc → Option (ℕ × QueuePc ℕ)
  | .promise p (.callback pcc _) => some ((callbacks pcc).callbackParam, .called (.push p blocking))
  | .promise _ _ => none
  | .callback _ sq _ pc => some (sq, pc)
  | .queue sq pc => some (sq, pc)

section Queue

variable {callbacks : ℕ → PushCallback} {s s' : CompletionState} {t : ℕ} {o : Outcome}
  {pc pc' : CompletionPc} {new : List CompletionPc}

/-- A section leaves queue `sq` alone, or is a section on it: of a thread that is on it,
    or of one that comes to push its promise. -/
theorem completionStep_queue (h : completionStep callbacks s t pc o = some (s', pc', new))
    (sq : ℕ) :
    (s'.queues sq = s.queues sq ∧ pc.on? sq = none ∧ pc'.on? sq = none) ∨
      ∃ qpc qpc', queueStep (s.queues sq) t qpc o = some (s'.queues sq, qpc', []) ∧
        pc.enters? callbacks = some (sq, qpc) ∧ pc'.on? sq = some qpc' ∧
        (pc.on? sq = some qpc ∨ (pc.on? sq = none ∧ ∃ p, qpc = .called (.push p blocking))) := by
  obtain ⟨hmove, rfl⟩ := completionStep_move h
  cases hmove with
  | promise p ppc ps ppc' _ _ => exact .inl ⟨rfl, rfl, rfl⟩
  | invoke p pcc r sq' qs qpc' hsq' hq =>
    by_cases hsq : sq' = sq
    · subst hsq
      refine .inr ⟨_, qpc', ?_, by rw [hsq']; rfl, if_pos rfl, .inr ⟨rfl, p, rfl⟩⟩
      rw [CompletionState.setQueue_self]
      exact hq
    · exact .inl ⟨CompletionState.setQueue_of_ne (Ne.symm hsq) _ _, rfl, if_neg hsq⟩
  | callback p sq' r qpc qs qpc' hq =>
    by_cases hsq : sq' = sq
    · subst hsq
      refine .inr ⟨qpc, qpc', ?_, rfl, if_pos rfl, .inl (if_pos rfl)⟩
      rw [CompletionState.setQueue_self]
      exact hq
    · exact .inl ⟨CompletionState.setQueue_of_ne (Ne.symm hsq) _ _, if_neg hsq, if_neg hsq⟩
  | queue sq' qpc qs qpc' hq =>
    by_cases hsq : sq' = sq
    · subst hsq
      refine .inr ⟨qpc, qpc', ?_, rfl, if_pos rfl, .inl (if_pos rfl)⟩
      rw [CompletionState.setQueue_self]
      exact hq
    · exact .inl ⟨CompletionState.setQueue_of_ne (Ne.symm hsq) _ _, if_neg hsq, if_neg hsq⟩

theorem completionWake_queue (h : completionWake s t pc = some s') (sq : ℕ) :
    s'.queues sq = s.queues sq ∨ ∃ qpc, queueWake (s.queues sq) t qpc = some (s'.queues sq) := by
  obtain ⟨p, ppc, ps, -, rfl⟩ | ⟨sq', qpc, qs, hq, rfl⟩ := completionWake_cases h
  · exact .inl rfl
  · by_cases hsq : sq' = sq
    · subst hsq
      refine .inr ⟨qpc, ?_⟩
      rw [CompletionState.setQueue_self]
      exact hq
    · exact .inl (CompletionState.setQueue_of_ne (Ne.symm hsq) _ _)

/-- Every queue keeps what the sections and the wake-ups on a queue keep. -/
theorem completion_queue_next {R : QueueState ℕ → Prop} {c c' : CompletionConfig}
    {a : Act CompletionCall Outcome} (h : (completionSystem callbacks).next c a = some c') (sq : ℕ)
    (hstep : ∀ {s t pc o s' pc' new}, queueStep s t pc o = some (s', pc', new) → R s → R s')
    (hwake : ∀ {s t pc s'}, queueWake s t pc = some s' → R s → R s')
    (hc : R (c.shared.queues sq)) : R (c'.shared.queues sq) := by
  refine System.next_stable (R := fun s => R (s.queues sq)) h ?_ ?_ hc
  · intro s t pc o s' pc' new hs hc
    rcases completionStep_queue hs sq with ⟨hsame, -⟩ | ⟨qpc, qpc', hq, -⟩
    · exact hsame ▸ hc
    · exact hstep hq hc
  · intro s t pc s' hs hc
    rcases completionWake_queue hs sq with hsame | ⟨qpc, hq⟩
    · exact hsame ▸ hc
    · exact hwake hq hc

/-- A call that starts is on a queue before its first section, or on none. -/
theorem CompletionCall.start_on (k : CompletionCall) (sq : ℕ) :
    k.start.on? sq = none ∨ ∃ k', k.start.on? sq = some (.called k') := by
  cases k with
  | promise p k => exact .inl rfl
  | queue sq' k =>
    by_cases hsq : sq' = sq
    · exact .inr ⟨k, if_pos hsq⟩
    · exact .inl (if_neg hsq)

end Queue

/-! ## Who runs the callback -/

/-- The promise has its result, and its callback pushes to `sq`. -/
def Promise.completesTo (callbacks : ℕ → PushCallback) (p : Promise) (sq : ℕ) : Bool :=
  p.outputResultReady && p.promisedCallback.any fun pcc => (callbacks pcc).callbackParam == sq

/-- The call runs the callback of promise `p` with the queue `sq`, or has run it. -/
def CompletionPc.handsOver (callbacks : ℕ → PushCallback) (p sq : ℕ) : CompletionPc → Bool
  | .promise p' (.callback pcc _) => p' == p && (callbacks pcc).callbackParam == sq
  | .callback p' sq' _ _ => p' == p && sq' == sq
  | _ => false

section HandsOver

variable {callbacks : ℕ → PushCallback} {p sq : ℕ}

@[simp] theorem CompletionPc.handsOver_after (pcc : Ptr) (r : PromiseResult) :
    (CompletionPc.promise p (.after pcc r)).handsOver callbacks p sq =
      pcc.any fun pcc => (callbacks pcc).callbackParam == sq := by
  cases pcc with
  | none => rfl
  | some pcc => simp [PromisePc.after, handsOver]

theorem CompletionPc.handsOver_of_ne {p' : ℕ} (hne : p' ≠ p) (pc : PromisePc) :
    (CompletionPc.promise p' pc).handsOver callbacks p sq = false := by
  cases pc <;> simp [handsOver, hne]

variable (callbacks p sq)

/-- A section on the promise starts a callback exactly if it completes the promise. -/
theorem PromiseMove.handsOver {s s' : PromiseState} {t : ℕ} {pc pc' : PromisePc}
    (h : PromiseMove s t pc s' pc') (hpc : ∀ pcc r, pc ≠ .callback pcc r) :
    (s'.promise.completesTo callbacks sq).toNat +
        ((CompletionPc.promise p pc).handsOver callbacks p sq).toNat =
      (s.promise.completesTo callbacks sq).toNat +
        ((CompletionPc.promise p pc').handsOver callbacks p sq).toNat := by
  cases h with
  | resultWins res hready =>
    rw [CompletionPc.handsOver_after]
    simp [Promise.completesTo, hready, CompletionPc.handsOver]
  | got pc hat _ => cases hat <;> rfl
  | wait pc hat _ => cases hat <;> rfl
  | callbackWins pcc run hfirst hrun =>
    rw [CompletionPc.handsOver_after, hrun]
    cases hready : s.promise.outputResultReady <;>
      simp [Promise.completesTo, hready, hfirst, CompletionPc.handsOver]
  | invoke pcc r => exact absurd rfl (hpc pcc r)
  | _ => rfl

/-- A promise is complete exactly if one call runs its callback, or has run it. -/
theorem handsOver_balanced : System.Balanced (completionSystem callbacks) (fun _ => True)
    (fun pc => (pc.handsOver callbacks p sq).toNat) (fun _ => 0)
    (fun s => ((s.promises p).promise.completesTo callbacks sq).toNat) where
  start _ k := by
    cases k with
    | promise p' k => cases k <;> rfl
    | queue sq' k => rfl
  step {s t pc o s' pc' new} hs _ _ := by
    obtain ⟨hmove, rfl⟩ := completionStep_move hs
    cases hmove with
    | promise p' ppc ps ppc' hnot hp =>
      by_cases hpp : p = p'
      · subst hpp
        have hsame := hp.handsOver callbacks p sq hnot
        simpa using hsame
      · simp [CompletionState.setPromise_of_ne hpp, CompletionPc.handsOver_of_ne (Ne.symm hpp)]
    | invoke p' pcc r sq' qs qpc' hsq _ =>
      subst hsq
      simp [CompletionPc.handsOver]
    | callback p' sq' r qpc qs qpc' _ => rfl
    | queue sq' qpc qs qpc' _ => rfl
  wake hs := by
    obtain ⟨p', ppc, ps, hp, rfl⟩ | ⟨sq', qpc, qs, -, rfl⟩ := completionWake_cases hs
    · obtain ⟨cv, rfl⟩ := promiseWake_frame hp
      by_cases hpp : p = p'
      · subst hpp
        simp [Promise.completesTo]
      · simp [CompletionState.setPromise_of_ne hpp]
    · rfl

end HandsOver

/-! ## What the callbacks push -/

/-- A push of `d` that returned 1. -/
def QueuePc.pushed (d : ℕ) : QueuePc ℕ → Bool
  | .returned (.push e _) (.pushed isPushed) => e == d && isPushed
  | _ => false

/-- The call pushed `d` to `sq`. -/
def CompletionPc.pushed (d sq : ℕ) (pc : CompletionPc) : Bool := (pc.on? sq).any (QueuePc.pushed d)

theorem QueueMove.pushed_count {s s' : QueueState ℕ} {t : ℕ} {o : Outcome} {pc pc' : QueuePc ℕ}
    (h : QueueMove s t o pc s' pc') (d : ℕ) :
    s'.pushed.count d + (pc.pushed d).toNat = s.pushed.count d + (pc'.pushed d).toNat := by
  have hpush : ∀ (e timeout : ℕ) (q : JobQueue ℕ) (r : Option Bool),
      (s.afterPush e timeout (q, r)).1.pushed.count d =
        s.pushed.count d + ((s.afterPush e timeout (q, r)).2.1.pushed d).toNat := by
    intro e timeout q r
    rw [afterPush_pushed, List.count_append]
    rcases r with _ | isPushed
    · rfl
    · cases isPushed with
      | false => simp [QueueState.afterPush, QueuePc.pushed]
      | true => by_cases hed : e = d <;> simp [QueueState.afterPush, QueuePc.pushed, hed]
  have hpop : ∀ (timeout : ℕ) (q : JobQueue ℕ) (r : Option (Option ℕ)),
      (s.afterPop timeout (q, r)).1.pushed.count d =
        s.pushed.count d + ((s.afterPop timeout (q, r)).2.1.pushed d).toNat := by
    intro timeout q r
    rw [afterPop_pushed]
    cases r <;> rfl
  cases h with
  | push e timeout q r _ => exact hpush e timeout q r
  | pushResume e timeout q r _ _ => exact hpush e _ q r
  | pop timeout q r _ => exact hpop timeout q r
  | popResume timeout q r _ _ => exact hpop _ q r
  | close => rfl
  | updateMaxCapacity n => rfl
  | query k r hpushed _ =>
    have hnone : (QueuePc.returned k r).pushed d = false := by
      unfold QueuePc.pushed
      split
      · rename_i heq
        cases heq
        exact absurd rfl (hpushed _)
      · rfl
    rw [hnone]
    rfl

/-- A queue was pushed what the calls pushed to it. -/
theorem pushed_balanced (callbacks : ℕ → PushCallback) (d sq : ℕ) :
    System.Balanced (completionSystem callbacks) (fun _ => True)
      (fun pc => (pc.pushed d sq).toNat) (fun _ => 0)
      (fun s => (s.queues sq).pushed.count d) where
  start t k := by
    have hstart : (completionSystem callbacks).start t k = k.start := rfl
    rw [hstart, CompletionPc.pushed]
    obtain hnone | ⟨k', hcalled⟩ := k.start_on sq
    · rw [hnone]
      rfl
    · rw [hcalled]
      rfl
  step {s t pc o s' pc' new} hs _ _ := by
    obtain ⟨-, rfl⟩ := completionStep_move hs
    simp only [CompletionPc.pushed]
    rcases completionStep_queue hs sq with ⟨hsame, hpc, hpc'⟩ | ⟨qpc, qpc', hq, -, hpc', hpc⟩
    · rw [hsame, hpc, hpc']
      rfl
    · have hcount := (queueStep_cases hq).2.pushed_count d
      rw [hpc']
      rcases hpc with hpc | ⟨hpc, p, rfl⟩
      · rw [hpc]
        exact hcount
      · rw [hpc]
        exact hcount
  wake hs := by
    rcases completionWake_queue hs sq with hsame | ⟨qpc, hq⟩
    · rw [hsame]
    · rw [(queueWake_frame hq).1]

/-- A push of `d` without a timeout, on its way or returned. -/
def QueuePc.IsPush (d : ℕ) : QueuePc ℕ → Prop
  | .called k => k = .push d blocking
  | .fullWait e timeout => e = d ∧ timeout = blocking
  | .returned k r => k = .push d blocking ∧ ∃ isPushed, r = .pushed isPushed
  | .emptyWait _ => False

theorem queueStep_isPush {s s' : QueueState ℕ} {t : ℕ} {o : Outcome} {pc pc' : QueuePc ℕ}
    {new : List (QueuePc ℕ)} (h : queueStep s t pc o = some (s', pc', new)) {d : ℕ}
    (hpc : pc.IsPush d) : pc'.IsPush d := by
  have hpush : ∀ {r : JobQueue ℕ × Option Bool}, s.afterPush d blocking r = (s', pc', new) →
      pc'.IsPush d := by
    rintro ⟨q, _ | isPushed⟩ heq
    · cases heq
      exact ⟨rfl, rfl⟩
    · cases heq
      exact ⟨rfl, isPushed, rfl⟩
  cases pc with
  | called k =>
    cases hpc
    exact hpush (Option.some.inj h)
  | fullWait e timeout =>
    obtain ⟨rfl, rfl⟩ := hpc
    simp only [queueStep, leftOf_blocking, Option.ite_none_left_eq_some, Option.some.injEq] at h
    exact hpush h.2
  | emptyWait timeout => exact hpc.elim
  | returned k r => cases h

/-- A callback pushes its own promise. -/
def CompletionPc.PushesOwn : CompletionPc → Prop
  | .callback p _ _ pc => pc.IsPush p
  | _ => True

theorem pushesOwn_upholds (callbacks : ℕ → PushCallback) :
    System.Upholds (completionSystem callbacks) (fun _ => True) (fun _ => CompletionPc.PushesOwn)
    where
  start _ _ k := by cases k <;> trivial
  step hs _ hpc := by
    obtain ⟨hmove, rfl⟩ := completionStep_move hs
    refine ⟨trivial, ?_, nofun, fun _ => id⟩
    cases hmove with
    | invoke p pcc r sq qs qpc' _ hq => exact queueStep_isPush hq (Eq.refl _)
    | callback p sq r qpc qs qpc' hq => exact queueStep_isPush hq hpc
    | _ => trivial
  wake _ _ := ⟨trivial, fun _ => id⟩

/-! ## Handed over once -/

/-- The callback is over, and its push returned 1. -/
def CompletionPc.handedOver : CompletionPc → Bool
  | .callback _ _ _ (.returned _ (.pushed isPushed)) => isPushed
  | _ => false

/-- A client pushed to the queue itself. -/
def CompletionPc.clientPushed (sq : ℕ) : CompletionPc → Bool
  | .queue sq' (.returned (.push _ _) _) => sq' == sq
  | _ => false

/-- Only callbacks pushed to the queue. -/
def OnlyCompletions (c : CompletionConfig) (sq : ℕ) : Prop :=
  ∀ pc ∈ c.threads, pc.clientPushed sq = false

instance (c : CompletionConfig) (sq : ℕ) : Decidable (OnlyCompletions c sq) :=
  inferInstanceAs (Decidable (∀ _ ∈ _, _))

section Once

variable {callbacks : ℕ → PushCallback} {maxCapacity : ℕ → WithTop ℕ} {c : CompletionConfig}

theorem count_handsOver (h : CompletionReach callbacks maxCapacity c) (p sq : ℕ) :
    c.count (CompletionPc.handsOver callbacks p sq) =
      ((c.shared.promises p).promise.completesTo callbacks sq).toNat :=
  (handsOver_balanced callbacks p sq).reach (by rfl) h

theorem count_pushed (h : CompletionReach callbacks maxCapacity c) (d sq : ℕ) :
    c.count (CompletionPc.pushed d sq) = (c.shared.queues sq).pushed.count d :=
  (pushed_balanced callbacks d sq).reach (by rfl) h

theorem pushesOwn_reach (h : CompletionReach callbacks maxCapacity c) {t : ℕ}
    {pc : CompletionPc} (hpc : c.pc? t = some pc) : pc.PushesOwn := by
  refine ((pushesOwn_upholds callbacks).reach trivial ?_ h).2 t pc hpc
  intro t pc hnone
  cases hnone

/-- What a callback pushed is its own promise. -/
theorem CompletionPc.pushed_callback {p sq d : ℕ} {r : PromiseResult} {pc : QueuePc ℕ}
    (hown : pc.IsPush p) :
    (CompletionPc.callback p sq r pc).pushed d sq = true ↔
      p = d ∧ (CompletionPc.callback p sq r pc).handedOver = true := by
  cases pc with
  | called k => cases hown; simp [pushed, on?, QueuePc.pushed, handedOver]
  | fullWait e timeout => simp [pushed, on?, QueuePc.pushed, handedOver]
  | emptyWait timeout => exact hown.elim
  | returned k r =>
    obtain ⟨rfl, isPushed, rfl⟩ := hown
    simp [pushed, on?, QueuePc.pushed, handedOver]

theorem CompletionPc.on_of_pushed {d sq : ℕ} {pc : CompletionPc} (h : pc.pushed d sq = true) :
    ∃ timeout isPushed, pc.on? sq = some (.returned (.push d timeout) (.pushed isPushed)) := by
  obtain ⟨qpc, hqpc, hpushed⟩ := (Option.any_eq_true _ _).mp h
  unfold QueuePc.pushed at hpushed
  split at hpushed
  · rename_i e timeout isPushed
    rw [Bool.and_eq_true, beq_iff_eq] at hpushed
    exact ⟨timeout, isPushed, hpushed.1 ▸ hqpc⟩
  · cases hpushed

/-- When only callbacks push, who pushed `d` is the callback of `d`. -/
theorem pushed_handsOver (h : CompletionReach callbacks maxCapacity c) {sq : ℕ}
    (honly : OnlyCompletions c sq) {t d : ℕ} {pc : CompletionPc} (hpc : c.pc? t = some pc)
    (hpushed : pc.pushed d sq = true) :
    pc.handsOver callbacks d sq = true ∧ pc.handedOver = true := by
  have hown := pushesOwn_reach h hpc
  obtain ⟨timeout, isPushed, hon⟩ := CompletionPc.on_of_pushed hpushed
  cases pc with
  | promise p ppc => cases hon
  | callback p sq' r qpc =>
    obtain ⟨rfl, -⟩ := Option.ite_none_right_eq_some.mp hon
    obtain ⟨rfl, hdone⟩ := (CompletionPc.pushed_callback hown).mp hpushed
    exact ⟨by simp [CompletionPc.handsOver], hdone⟩
  | queue sq' qpc =>
    obtain ⟨rfl, hqpc⟩ := Option.ite_none_right_eq_some.mp hon
    cases hqpc
    have hclient := honly _ (List.mem_of_getElem? hpc)
    rw [CompletionPc.clientPushed, beq_self_eq_true] at hclient
    cases hclient

/-- A promise in the history of a queue has one callback behind it, which is over. -/
theorem mem_pushed_iff (h : CompletionReach callbacks maxCapacity c) {sq : ℕ}
    (honly : OnlyCompletions c sq) {p : ℕ} :
    p ∈ (c.shared.queues sq).pushed ↔ ∃ t pc, c.pc? t = some pc ∧
      pc.handsOver callbacks p sq = true ∧ pc.handedOver = true := by
  rw [← List.count_pos_iff, ← count_pushed h]
  constructor
  · intro hpos
    obtain ⟨t, pc, hpc, hpushed⟩ := Config.exists_of_count_pos hpos
    exact ⟨t, pc, hpc, pushed_handsOver h honly hpc hpushed⟩
  · rintro ⟨t, pc, hpc, hhands, hdone⟩
    have hown := pushesOwn_reach h hpc
    refine Config.count_pos hpc ?_
    cases pc with
    | callback p' sq' r qpc =>
      simp only [CompletionPc.handsOver, Bool.and_eq_true, beq_iff_eq] at hhands
      obtain ⟨rfl, rfl⟩ := hhands
      exact (CompletionPc.pushed_callback hown).mpr ⟨rfl, hdone⟩
    | _ => cases hdone

theorem pushed_nodup (h : CompletionReach callbacks maxCapacity c) {sq : ℕ}
    (honly : OnlyCompletions c sq) : (c.shared.queues sq).pushed.Nodup := by
  refine List.nodup_iff_count_le_one.mpr fun p => ?_
  have hle : c.count (CompletionPc.pushed p sq) ≤
      c.count (CompletionPc.handsOver callbacks p sq) := by
    rw [← Config.card_those, ← Config.card_those]
    refine Finset.card_le_card fun t ht => ?_
    obtain ⟨pc, hpc, hpushed⟩ := Config.mem_those.mp ht
    exact Config.mem_those.mpr ⟨pc, hpc, (pushed_handsOver h honly hpc hpushed).1⟩
  rw [count_pushed h, count_handsOver h] at hle
  exact hle.trans (Bool.toNat_le _)

theorem completion_fifo (h : CompletionReach callbacks maxCapacity c) (sq : ℕ) :
    (c.shared.queues sq).Fifo := by
  refine h.invariant (P := fun c => (c.shared.queues sq).Fifo) rfl ?_
  intro c a c' _ hc _ hn
  exact completion_queue_next hn sq (fun hq => (queueStep_cases hq).2.fifo) queueWake_fifo hc

/-- In every interleaving of any calls on any number of promises and queues, a queue
    that only callbacks push to holds and has given out each promise at most once, and
    only promises that have their result and a callback for this queue. Behind such a
    promise there is exactly one call that runs its callback or has run it; the promise
    is in the history of the queue exactly if the push of that callback succeeded. -/
theorem completions_are_handed_over (h : CompletionReach callbacks maxCapacity c) {sq : ℕ}
    (honly : OnlyCompletions c sq) :
    (c.shared.queues sq).popped ++ (c.shared.queues sq).contents = (c.shared.queues sq).pushed ∧
    (c.shared.queues sq).pushed.Nodup ∧
    (∀ p ∈ (c.shared.queues sq).pushed,
      (c.shared.promises p).promise.completesTo callbacks sq = true) ∧
    ∀ p, (c.shared.promises p).promise.completesTo callbacks sq = true →
      ∃ t pc, c.pc? t = some pc ∧ pc.handsOver callbacks p sq = true ∧
        (∀ u q, c.pc? u = some q → q.handsOver callbacks p sq = true → u = t) ∧
        (p ∈ (c.shared.queues sq).pushed ↔ pc.handedOver = true) := by
  refine ⟨completion_fifo h sq, pushed_nodup h honly, ?_, ?_⟩
  · intro p hp
    obtain ⟨t, pc, hpc, hhands, -⟩ := (mem_pushed_iff h honly).mp hp
    have hpos := Config.count_pos hpc hhands
    rw [count_handsOver h] at hpos
    by_contra hnot
    rw [Bool.eq_false_iff.mpr hnot] at hpos
    exact Nat.lt_irrefl 0 hpos
  · intro p hcomplete
    have hone := count_handsOver h p sq
    rw [hcomplete, Bool.toNat_true] at hone
    obtain ⟨t, pc, hpc, hhands⟩ := Config.exists_of_count_pos (hone ▸ Nat.one_pos)
    have honce : ∀ u q, c.pc? u = some q → q.handsOver callbacks p sq = true → u = t :=
      fun u q hq hhandsq => Config.eq_of_count_le_one hone.le hq hpc hhandsq hhands
    refine ⟨t, pc, hpc, hhands, honce, ?_⟩
    rw [mem_pushed_iff h honly]
    constructor
    · rintro ⟨u, q, hq, hhandsq, hdone⟩
      obtain rfl := honce u q hq hhandsq
      rw [hpc] at hq
      cases hq
      exact hdone
    · exact fun hdone => ⟨t, pc, hpc, hhands, hdone⟩

end Once

/-- All callbacks push to queue 0. -/
def oneQueue (_ : ℕ) : PushCallback := pushToSyncQueueOnPromiseCompletionCallback 0

/-- Promise 3 gets its callback before its result, and promise 4 after it; both callbacks
    run, and one promise is popped. -/
def twoCompletions : CompletionConfig :=
  (completionSystem oneQueue).run (completionInit fun _ => ⊤)
    [.call (.promise 3 (.setCallback 1)) (.resize 1),
      .call (.promise 4 (.setResult none)) (.resize 1),
      .call (.promise 4 (.setCallback 1)) (.resize 1),
      .call (.promise 3 (.setResult (some 7))) (.resize 1), .step 3 (.resize 1),
      .step 2 (.resize 2), .call (.queue 0 (.pop blocking)) (.resize 2)] (by decide)

theorem completions_are_handed_over_twoCompletions :
    (twoCompletions.shared.queues 0).popped ++ (twoCompletions.shared.queues 0).contents =
        (twoCompletions.shared.queues 0).pushed ∧
      ∃ t pc, twoCompletions.pc? t = some pc ∧ pc.handsOver oneQueue 4 0 = true ∧
        (∀ u q, twoCompletions.pc? u = some q → q.handsOver oneQueue 4 0 = true → u = t) ∧
        (4 ∈ (twoCompletions.shared.queues 0).pushed ↔ pc.handedOver = true) := by
  have hreach : CompletionReach oneQueue (fun _ => ⊤) twoCompletions :=
    .run (S := completionSystem oneQueue) _ _ _
  have honly : OnlyCompletions twoCompletions 0 := by decide
  obtain ⟨hfifo, -, -, hhanded⟩ := completions_are_handed_over hreach honly
  exact ⟨hfifo, hhanded 4 (by decide)⟩

end BoomPar
