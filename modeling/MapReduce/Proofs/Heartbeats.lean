import Mathlib
import MapReduce.Proofs.Monitoring

namespace MapReduce

def Outcome.failed : Outcome → Bool
  | .dialFailure | .callFailure => true
  | .success _ => false

/-- The last `n` outcomes are all failures. -/
def FailedLast (n : Nat) (os : List Outcome) : Prop :=
  n ≤ os.length ∧ ∀ o ∈ os.drop (os.length - n), o.failed = true

instance decidableFailedLast (n : Nat) (os : List Outcome) : Decidable (FailedLast n os) :=
  inferInstanceAs (Decidable (_ ∧ _))

/-- No probe has ended yet, or the last one succeeded. -/
def Answering (os : List Outcome) : Prop := ∀ o, os.getLast? = some o → o.failed = false

/-- What a worker's status is to say of the probes that ended for it. -/
def Reflects (status : WorkerStatus) (os : List Outcome) : Prop :=
  (status = .statusError ↔ FailedLast 4 os) ∧
  (status = .stateConnected ↔ Answering os) ∧
  (status = .stateRetrying ↔ ¬ FailedLast 4 os ∧ ¬ Answering os)

/-- At least three probes got past the dial, and after the third of them only failed calls. -/
def Exhausted (os : List Outcome) : Prop :=
  let dialled := os.filter (· ≠ .dialFailure)
  3 ≤ dialled.length ∧ ∀ o ∈ dialled.drop 3, o = .callFailure

instance decidableExhausted (os : List Outcome) : Decidable (Exhausted os) :=
  inferInstanceAs (Decidable (_ ∧ _))

/-- Where the counter of `WorkerSync` counts consecutive failures: a last failed dial
does not come fourth, and a last failed call comes fourth exactly when the counter is used up. -/
def Accounted (os : List Outcome) : Prop :=
  ∀ before, (os = before ++ [.dialFailure] → ¬ FailedLast 3 before) ∧
    (os = before ++ [.callFailure] → (Exhausted before ↔ FailedLast 3 before))

namespace Proofs

theorem failedLast_concat (n : Nat) (os : List Outcome) (o : Outcome) :
    FailedLast (n + 1) (os ++ [o]) ↔ o.failed = true ∧ FailedLast n os := by
  have hd : (os ++ [o]).drop ((os ++ [o]).length - (n + 1)) = os.drop (os.length - n) ++ [o] := by
    rw [List.length_append,List.length_singleton,Nat.add_sub_add_right,
      List.drop_append_of_le_length (by omega)]
  unfold FailedLast
  rw [hd]
  simp only [List.length_append,List.length_singleton,List.mem_append,List.mem_singleton]
  constructor
  · intro h
    exact ⟨h.2 o (Or.inr rfl),by omega,fun o' ho => h.2 o' (Or.inl ho)⟩
  · intro h
    refine ⟨by omega,?_⟩
    intro o' ho
    rcases ho with ho | rfl
    · exact h.2.2 o' ho
    · exact h.1

theorem answering_concat (os : List Outcome) (o : Outcome) :
    Answering (os ++ [o]) ↔ o.failed = false := by
  simp [Answering]

/-- The counter, but for its width, after probes that got past the dial and ended as `ds`:
below three it is their number, and it stays at three while only failed calls follow. -/
def Counts (checks : Nat) (ds : List Outcome) : Prop :=
  (ds.length < 3 → checks = ds.length) ∧
    (3 ≤ ds.length → 3 ≤ checks ∧ (checks = 3 ↔ ∀ o ∈ ds.drop 3, o = .callFailure))

theorem counts_three (h : Counts checks ds) :
    checks = 3 ↔ 3 ≤ ds.length ∧ ∀ o ∈ ds.drop 3, o = .callFailure := by
  obtain ⟨hlow,hhigh⟩ := h
  by_cases hl : 3 ≤ ds.length
  · simp only [hl,true_and]
    exact (hhigh hl).2
  · have := hlow (by omega)
    simp only [hl,false_and,iff_false]
    omega

theorem counts_concat {ds : List Outcome} (h : Counts checks ds) (o : Outcome) :
    Counts (if o = .callFailure ∧ checks = 3 then checks else checks + 1) (ds ++ [o]) := by
  obtain ⟨hlow,hhigh⟩ := h
  rcases Nat.lt_or_ge ds.length 3 with hl | hl
  · have hc := hlow hl
    have hne : checks ≠ 3 := by omega
    have hd : (ds ++ [o]).drop 3 = [] := by simp; omega
    simp only [Counts,hne,and_false,↓reduceIte,hd,List.length_append,List.length_singleton,
      List.not_mem_nil,false_imp_iff,implies_true,iff_true]
    omega
  · obtain ⟨hge,hiff⟩ := hhigh hl
    refine ⟨by simp; omega,fun _ => ⟨by split <;> omega,?_⟩⟩
    rw [List.drop_append_of_le_length hl]
    by_cases ho : o = .callFailure
    · by_cases hc : checks = 3
      · rw [if_pos ⟨ho,hc⟩]
        refine ⟨fun _ x hx => ?_,fun _ => hc⟩
        rcases List.mem_append.mp hx with hx | hx
        · exact hiff.mp hc x hx
        · exact (List.mem_singleton.mp hx).trans ho
      · have hnot : ¬ ∀ o ∈ ds.drop 3, o = .callFailure := fun hall => hc (hiff.mpr hall)
        rw [if_neg (fun h => hc h.2)]
        constructor
        · omega
        · exact fun hall => absurd (fun o ho => hall o (List.mem_append_left _ ho)) hnot
    · rw [if_neg (fun h => ho h.1)]
      constructor
      · omega
      · exact fun hall => absurd (hall o (by simp)) ho

section
variable {int : IntSize}

theorem wrap_bmod (x : Int) : int.wrap x = x.bmod (2 ^ int.bits) := by
  cases int with
  | w32 => exact Int32.toInt_ofInt
  | w64 => exact Int64.toInt_ofInt

theorem wrap_succ (x : Int) : int.wrap (int.wrap x + 1) = int.wrap (x + 1) := by
  rw [wrap_bmod,wrap_bmod,wrap_bmod]
  exact Int.bmod_add_bmod

/-- A counter that has not gone around once tells three from every other number. -/
theorem wrap_three {n : Nat} (h : n < 2 ^ int.bits) : int.wrap n = 3 ↔ n = 3 := by
  have hfit : 3 < 2 ^ int.bits := by cases int <;> decide
  have hthree : int.wrap 3 = 3 := by cases int <;> decide
  constructor
  · intro he
    have hmod := congrArg (· % ((2 ^ int.bits : Nat) : Int)) he
    simp only [wrap_bmod,Int.bmod_emod] at hmod
    rw [Int.emod_eq_of_lt (by omega) (by exact_mod_cast h),
      Int.emod_eq_of_lt (by omega) (by exact_mod_cast hfit)] at hmod
    exact_mod_cast hmod
  · rintro rfl
    exact hthree

/-- What an `int` of the width shows of the counter. -/
def Shows (int : IntSize) (checks : Int) (ds : List Outcome) : Prop :=
  ∃ n : Nat, n ≤ ds.length ∧ checks = int.wrap n ∧ Counts n ds

theorem Shows.three (h : Shows int checks ds) (hl : ds.length < 2 ^ int.bits) :
    checks = 3 ↔ 3 ≤ ds.length ∧ ∀ o ∈ ds.drop 3, o = .callFailure := by
  obtain ⟨n,hn,rfl,hc⟩ := h
  rw [wrap_three (by omega)]
  exact counts_three hc

theorem Shows.concat {ds : List Outcome} (h : Shows int checks ds)
    (hl : ds.length < 2 ^ int.bits) (o : Outcome) :
    Shows int (if o = .callFailure ∧ checks = 3 then checks else int.wrap (checks + 1))
      (ds ++ [o]) := by
  obtain ⟨n,hn,rfl,hc⟩ := h
  have hthree : int.wrap n = 3 ↔ n = 3 := wrap_three (by omega)
  simp only [hthree]
  refine ⟨_,?_,?_,counts_concat hc o⟩
  · rw [List.length_append,List.length_singleton]
    split <;> omega
  · split
    · rfl
    · exact wrap_succ _

theorem Shows.probed {w : WorkerType}
    (h : Shows int w.heartBeatChecks (os.filter (· ≠ .dialFailure)))
    (hl : (os.filter (· ≠ .dialFailure)).length < 2 ^ int.bits) (o : Outcome) :
    Shows int (w.probed int o).heartBeatChecks ((os ++ [o]).filter (· ≠ .dialFailure)) := by
  cases o with
  | dialFailure => simpa [WorkerType.probed] using h
  | callFailure =>
    have hc := h.concat hl .callFailure
    simp only [WorkerType.probed,List.filter_append]
    split <;> simpa [*] using hc
  | success result => simpa [WorkerType.probed] using h.concat hl (.success result)

/-- The status that the last outcome left behind. -/
theorem probed_status (w : WorkerType) (o : Outcome) : (w.probed int o).status =
    if o.failed = false then .stateConnected
    else if o = .callFailure ∧ w.heartBeatChecks = 3 then .statusError else .stateRetrying := by
  cases o with
  | dialFailure | success _ => simp [WorkerType.probed,Outcome.failed]
  | callFailure => by_cases h : w.heartBeatChecks = 3 <;> simp [WorkerType.probed,Outcome.failed,h]

theorem accounted_concat (os : List Outcome) (o : Outcome) : Accounted (os ++ [o]) ↔
    (o = .dialFailure → ¬ FailedLast 3 os) ∧
      (o = .callFailure → (Exhausted os ↔ FailedLast 3 os)) := by
  constructor
  · intro h
    exact ⟨fun ho => (h os).1 (by rw [ho]),fun ho => (h os).2 (by rw [ho])⟩
  · intro h before
    constructor
    · intro he
      obtain ⟨rfl,ho⟩ := List.append_inj' he rfl
      exact h.1 (List.cons.inj ho).1
    · intro he
      obtain ⟨rfl,ho⟩ := List.append_inj' he rfl
      exact h.2 (List.cons.inj ho).1

variable {fresh : WorkerType}

theorem dialled_lt {n : Nat}
    (h : ((os ++ [o]).filter (· ≠ Outcome.dialFailure)).length < n) :
    (os.filter (· ≠ Outcome.dialFailure)).length < n := by
  rw [List.filter_append,List.length_append] at h
  omega

theorem folded_shows (hc : fresh.heartBeatChecks = 0) {os : List Outcome}
    (hl : (os.filter (· ≠ .dialFailure)).length < 2 ^ int.bits) :
    Shows int (os.foldl (WorkerType.probed int) fresh).heartBeatChecks
      (os.filter (· ≠ .dialFailure)) := by
  induction os using List.reverseRecOn with
  | nil => exact ⟨0,Nat.le_refl 0,by simp [wrap_bmod,hc],by simp [Counts]⟩
  | append_singleton os o ih =>
    rw [List.foldl_append]
    exact (ih (dialled_lt hl)).probed (dialled_lt hl) o

theorem folded_reflects (hc : fresh.heartBeatChecks = 0) (hs : fresh.status = .stateConnected)
    (os : List Outcome) (hl : (os.filter (· ≠ .dialFailure)).length < 2 ^ int.bits) :
    Reflects (os.foldl (WorkerType.probed int) fresh).status os ↔ Accounted os := by
  rcases List.eq_nil_or_concat os with rfl | ⟨os,o,rfl⟩
  · simp [Reflects,Accounted,FailedLast,Answering,hs]
  · rw [List.concat_eq_append] at hl
    have hcount : _ ↔ Exhausted os := (folded_shows hc (dialled_lt hl)).three (dialled_lt hl)
    rw [List.concat_eq_append,accounted_concat,List.foldl_append,Reflects,failedLast_concat,
      answering_concat]
    simp only [List.foldl_cons,List.foldl_nil,probed_status]
    cases o with
    | success result => simp [Outcome.failed]
    | dialFailure => simp [Outcome.failed]
    | callFailure =>
      rw [← hcount]
      by_cases he : (os.foldl (WorkerType.probed int) fresh).heartBeatChecks = 3 <;>
        simp [Outcome.failed,he]

/-- The record at `idx` is that of a fresh worker after the outcomes recorded for it. -/
def Tracked (int : IntSize) (idx : Nat) (os : List Outcome) (m : Monitor) : Prop :=
  match m.coordinator.workers[idx]? with
  | none => os = []
  | some worker => ∃ fresh : WorkerType, fresh.heartBeatChecks = 0 ∧
      fresh.status = .stateConnected ∧ worker = os.foldl (WorkerType.probed int) fresh

theorem enrols_fresh {call : Call} (h : worker ∈ enrols call) :
    worker.heartBeatChecks = 0 ∧ worker.status = .stateConnected := by
  cases call with
  | registerWorker args =>
    rw [List.mem_singleton.mp h]
    exact ⟨rfl,rfl⟩
  | taskRequestByWorker _ | taskUpdateByWorker _ => simp [enrols] at h

theorem Monitored.tracked {m m' : Monitor} {idx : Nat} (h : Monitored int m event m')
    (hr : Tracked int idx os m) : Tracked int idx (os ++ m.outcomes idx event) m' := by
  cases h with
  | ticked _ | copied =>
    simp only [Monitor.outcomes,List.append_nil]
    exact hr
  | called =>
    simp only [Monitor.outcomes,List.append_nil]
    unfold Tracked at hr ⊢
    rw [handle_workers]
    cases hw : m.coordinator.workers[idx]? with
    | some worker =>
      rw [hw] at hr
      rw [List.getElem?_append_left (List.getElem?_eq_some_iff.mp hw).1,hw]
      exact hr
    | none =>
      rw [hw] at hr
      rw [List.getElem?_append_right (List.getElem?_eq_none_iff.mp hw)]
      split
      · exact hr
      · rename_i worker hj
        obtain ⟨hc,hs⟩ := enrols_fresh (List.mem_of_getElem? hj)
        exact ⟨worker,hc,hs,by rw [hr]; rfl⟩
  | synced hp hw =>
    rename_i i probe worker outcome
    unfold Tracked at hr ⊢
    simp only [Monitor.outcomes,hp,Option.map_some,Option.some.injEq]
    rw [List.getElem?_set]
    by_cases hi : probe.workerIdx = idx
    · subst hi
      rw [hw] at hr
      obtain ⟨fresh,hc,hs,rfl⟩ := hr
      rw [if_pos rfl,if_pos rfl,if_pos (List.getElem?_eq_some_iff.mp hw).1]
      exact ⟨fresh,hc,hs,by rw [List.foldl_append]; rfl⟩
    · rw [if_neg hi,if_neg hi,List.append_nil]
      exact hr

end

/-- In a run of calls and health checks, a worker's status says what it is to say of its
outcomes in that run exactly where the counter accounts for them, as long as the probes that
got past the dial are too few to take the counter around. -/
theorem status_reflects_failures (int : IntSize) (files : List String) (nReduce : Int)
    (events : List Monitor.Event) (idx : Nat)
    (hr : Runs.run (Monitor.next int) (Monitor.start files nReduce) events = some m)
    (hw : m.coordinator.workers[idx]? = some worker) :
    let os := Runs.trace (Monitor.next int) (Monitor.outcomes idx)
      (Monitor.start files nReduce) events
    (os.filter (· ≠ .dialFailure)).length < 2 ^ int.bits →
      (Reflects worker.status os ↔ Accounted os) := by
  intro os hl
  have hrec : Tracked int idx ([] ++ os) m :=
    Runs.invariant_trace (Monitor.outcomes idx) (Tracked int idx)
      (fun _ _ _ _ hi _ h => (next_monitored h).tracked hi) [] hr (Runs.obeys_true _ _)
      (by simp [Tracked,Monitor.start,makeCoordinator])
  unfold Tracked at hrec
  rw [hw] at hrec
  obtain ⟨fresh,hc,hs,rfl⟩ := hrec
  exact folded_reflects hc hs os hl

/-- One worker that is probed in round after round, with these outcomes. -/
def probeRounds (os : List Outcome) : List Monitor.Event :=
  .call (.registerWorker ⟨"worker-1","localhost","3001"⟩) ::
    os.flatMap (fun o => [.tick,.snapshot,.workerSync 0 o])

theorem status_reflects_failures_four_calls :
    Reflects .statusError [.callFailure,.callFailure,.callFailure,.callFailure] :=
  (status_reflects_failures .w32 ["pg.txt"] 1
    (probeRounds [.callFailure,.callFailure,.callFailure,.callFailure]) 0
    (Option.eq_some_of_isSome (by decide)) rfl (by decide)).mpr
      ((accounted_concat [.callFailure,.callFailure,.callFailure] .callFailure).mpr
        ⟨by decide,fun _ => by decide⟩)

/-- A worker that cannot be dialled four times in a row is still being retried. -/
theorem unreachable_worker_retrying :
    let os := [.dialFailure,.dialFailure,.dialFailure,.dialFailure]
    (Runs.run (Monitor.next .w64) (Monitor.start ["pg.txt"] 1) (probeRounds os)).map
        (fun m => m.coordinator.workers.map WorkerType.status) = some [.stateRetrying] ∧
      Runs.trace (Monitor.next .w64) (Monitor.outcomes 0) (Monitor.start ["pg.txt"] 1)
        (probeRounds os) = os ∧
      ¬ Reflects .stateRetrying os := by
  refine ⟨by decide,by decide,?_⟩
  intro h
  exact (h.2.2.mp rfl).1 (by decide)

end Proofs

end MapReduce
