import Mathlib
import MapReduce.Library.Intervals
import MapReduce.Proofs.Verdicts

namespace MapReduce.Porcupine

section
variable {ι ο σ : Type}

/-- What an object makes of an operation with its output. -/
def Object.apply (object : Object ι ο σ) (s : σ) (op : Operation ι ο) : Option σ :=
  let (ok,t) := object.step s op.input op.output
  if ok then some t else none

/-- No operation returns before its call. -/
def Timed (history : List (Operation ι ο)) : Prop := ∀ op ∈ history, op.call ≤ op.ret

/-- A history of operations is linearizable. -/
def LinearizableOperations (object : Object ι ο σ) (history : List (Operation ι ο)) : Prop :=
  Linearization.Linearizable Operation.call Operation.ret object.apply object.init history

end

end MapReduce.Porcupine

namespace MapReduce.Proofs
open MapReduce.Porcupine Linearization Runs List

section
variable {ι ο σ : Type}

def callOf (id : Nat) (op : Operation ι ο) : Entry ι ο :=
  ⟨.callEntry,.input op.input,id,op.call,op.clientId⟩

def returnOf (id : Nat) (op : Operation ι ο) : Entry ι ο :=
  ⟨.returnEntry,.output op.output,id,op.ret,op.clientId⟩

variable {history : List (Operation ι ο)} {sort : TimeSort ι ο} {e e' : Entry ι ο}

theorem mem_operationEntries {n : Nat} : e ∈ operationEntries n history ↔
    ∃ k op, history[k]? = some op ∧ (e = callOf (n + k) op ∨ e = returnOf (n + k) op) := by
  induction history generalizing n with
  | nil => simp [operationEntries]
  | cons op history ih =>
    simp only [operationEntries,List.mem_cons,ih]
    constructor
    · rintro (rfl | rfl | ⟨k,op',hk,he⟩)
      · exact ⟨0,op,rfl,.inl rfl⟩
      · exact ⟨0,op,rfl,.inr rfl⟩
      · exact ⟨k + 1,op',hk,by rwa [← Nat.add_assoc,Nat.add_right_comm]⟩
    · rintro ⟨k,op',hk,he⟩
      cases k with
      | zero =>
        cases hk
        exact he.imp id .inl
      | succ k => exact .inr (.inr ⟨k,op',hk,by rwa [Nat.add_right_comm,Nat.add_assoc]⟩)

theorem operationEntries_length (n : Nat) (history : List (Operation ι ο)) :
    (operationEntries n history).length = 2 * history.length := by
  induction history generalizing n with
  | nil => rfl
  | cons op history ih =>
    simp only [operationEntries,List.length_cons,ih]
    omega

theorem operationEntries_nodup (n : Nat) (history : List (Operation ι ο)) :
    ((operationEntries n history).map Entry.mark).Nodup := by
  induction history generalizing n with
  | nil => exact List.nodup_nil
  | cons op history ih =>
    have hlater : ∀ m ∈ (operationEntries (n + 1) history).map Entry.mark, m.op ≠ (n : Int) := by
      intro m hm
      obtain ⟨e,he,rfl⟩ := List.mem_map.mp hm
      obtain ⟨k,op',_,rfl | rfl⟩ := mem_operationEntries.mp he
      all_goals
        rw [mark_op]
        simp only [callOf,returnOf]
        omega
    refine List.nodup_cons.mpr ⟨fun h => ?_,List.nodup_cons.mpr ⟨fun h => hlater _ h rfl,ih _⟩⟩
    rcases List.mem_cons.mp h with h | h
    · cases h
    · exact hlater _ h rfl

theorem mem_makeEntries : e ∈ makeEntries sort history ↔
    ∃ k op, history[k]? = some op ∧ (e = callOf k op ∨ e = returnOf k op) := by
  rw [makeEntries,(sort.perm _).mem_iff,mem_operationEntries]
  simp only [Nat.zero_add]

theorem makeEntries_length : (makeEntries sort history).length / 2 = history.length := by
  rw [makeEntries,(sort.perm _).length_eq,operationEntries_length]
  omega

theorem makeEntries_nodup : ((makeEntries sort history).map Entry.mark).Nodup :=
  (((sort.perm _).map _).nodup_iff).mpr (operationEntries_nodup 0 history)

theorem less_iff : e.less e' = true ↔ e.time < e'.time ∨
    e.time = e'.time ∧ e.kind = .callEntry ∧ e'.kind = .returnEntry := by
  rw [Entry.less]
  split
  · simp_all
  · simp_all

theorem less_of_time (h : e.time < e'.time) : e.less e' = true := less_iff.mpr (.inl h)

theorem call_less (hc : e.kind = .callEntry) (hr : e'.kind = .returnEntry)
    (h : e.time ≤ e'.time) : e.less e' = true :=
  less_iff.mpr (h.lt_or_eq.imp id (fun h => ⟨h,hc,hr⟩))

theorem less_irrefl (e : Entry ι ο) : e.less e = false := by
  rw [← Bool.not_eq_true,less_iff]
  cases hk : e.kind <;> simp

theorem not_less_trans (a b c : Entry ι ο) (hab : (!b.less a) = true) (hbc : (!c.less b) = true) :
    (!c.less a) = true := by
  rw [Bool.not_eq_true',← Bool.not_eq_true,less_iff] at hab hbc ⊢
  cases ha : a.kind <;> cases hb : b.kind <;> cases hc : c.kind <;> simp_all <;> omega

theorem not_less_total (a b : Entry ι ο) : ((!b.less a) || (!a.less b)) = true := by
  rw [Bool.or_eq_true,Bool.not_eq_true',Bool.not_eq_true',← Bool.not_eq_true,← Bool.not_eq_true,
    less_iff,less_iff]
  cases ha : a.kind <;> cases hb : b.kind <;> simp <;> omega

theorem mergeSort_sorted (l : List (Entry ι ο)) :
    (l.mergeSort (fun a b => !b.less a)).Pairwise (fun a b => b.less a = false) :=
  (List.pairwise_mergeSort not_less_trans not_less_total l).imp (fun h => by simpa using h)

/-- One of the sorts that `byTime` allows. -/
def stableSort (ι ο : Type) : TimeSort ι ο where
  sort l := l.mergeSort (fun a b => !b.less a)
  perm l := List.mergeSort_perm l _
  sorted := mergeSort_sorted

/-- What is less comes first. -/
theorem sorted_entries (he : e ∈ makeEntries sort history) (he' : e' ∈ makeEntries sort history)
    (hl : e.less e' = true) : [e.mark,e'.mark] <+ (makeEntries sort history).map Entry.mark := by
  have hne : e ≠ e' := by
    rintro rfl
    simp [less_irrefl] at hl
  rcases one_order he he' hne with h | h
  · exact h.map Entry.mark
  · have hpair := (sort.sorted (operationEntries 0 history)).sublist h
    simp [hl] at hpair

/-- A return is before a call in the history exactly when its time is. -/
theorem entries_order {i j : Nat} {a b : Operation ι ο} (ha : history[i]? = some a)
    (hb : history[j]? = some b) :
    [.ret (i : Int),.call (j : Int)] <+ (makeEntries sort history).map Entry.mark ↔
      a.ret < b.call := by
  have hret : returnOf i a ∈ makeEntries sort history := mem_makeEntries.mpr ⟨i,a,ha,.inr rfl⟩
  have hcall : callOf j b ∈ makeEntries sort history := mem_makeEntries.mpr ⟨j,b,hb,.inl rfl⟩
  constructor
  · intro hs
    by_contra hlt
    have hless : (callOf j b).less (returnOf i a) = true := call_less rfl rfl (not_lt.mp hlt)
    exact not_both_orders makeEntries_nodup hs (sorted_entries hcall hret hless)
  · exact fun hlt => sorted_entries hret hcall (less_of_time hlt)

/-- The entries of a timed history are a complete one. -/
theorem makeEntries_complete (sort : TimeSort ι ο) (ht : Timed history) :
    Complete (makeEntries sort history) where
  formed := by
    refine ⟨makeEntries_nodup,fun m hm => ?_⟩
    obtain ⟨e,he,rfl⟩ := List.mem_map.mp hm
    obtain ⟨k,op,hk,hop⟩ := mem_makeEntries.mp he
    have hid : e.mark.op = k := by
      rw [mark_op]
      rcases hop with rfl | rfl <;> rfl
    have hless : (callOf k op).less (returnOf k op) = true :=
      call_less rfl rfl (ht op (List.mem_of_getElem? hk))
    rw [hid]
    exact sorted_entries (mem_makeEntries.mpr ⟨k,op,hk,.inl rfl⟩)
      (mem_makeEntries.mpr ⟨k,op,hk,.inr rfl⟩) hless
  numbered e he := by
    obtain ⟨k,op,hk,hop⟩ := mem_makeEntries.mp he
    refine ⟨k,?_,?_⟩
    · rw [makeEntries_length]
      exact (List.getElem?_eq_some_iff.mp hk).1
    · rcases hop with rfl | rfl <;> rfl
  input e he hkind := by
    obtain ⟨k,op,_,rfl | rfl⟩ := mem_makeEntries.mp he
    · exact ⟨op.input,rfl⟩
    · cases hkind
  output e he hkind := by
    obtain ⟨k,op,_,rfl | rfl⟩ := mem_makeEntries.mp he
    · cases hkind
    · exact ⟨op.output,rfl⟩

theorem makeEntries_step (object : Object ι ο σ) (ht : Timed history) {k : Nat}
    {op : Operation ι ο} (hk : history[k]? = some op) (s : σ) :
    entryStep object (makeEntries sort history) s k = object.apply s op := by
  have hc := makeEntries_complete sort ht
  have hin : valueOf .callEntry Value.input? (makeEntries sort history) k = some op.input :=
    valueOf_eq hc (mem_makeEntries.mpr ⟨k,op,hk,.inl rfl⟩) rfl
  have hout : valueOf .returnEntry Value.output? (makeEntries sort history) k = some op.output :=
    valueOf_eq hc (mem_makeEntries.mpr ⟨k,op,hk,.inr rfl⟩) rfl
  rw [entryStep,hin,hout]
  rfl

theorem makeEntries_ops (sort : TimeSort ι ο) (ht : Timed history) :
    (ops ((makeEntries sort history).map Entry.mark)).Perm
      ((List.range history.length).map Nat.cast) := by
  have hnodup : ((List.range history.length).map (Nat.cast : Nat → Int)).Nodup :=
    List.nodup_range.map Nat.cast_injective
  refine (List.perm_ext_iff_of_nodup (makeEntries_complete sort ht).formed.ops_nodup hnodup).mpr
    (fun a => ?_)
  rw [mem_ops]
  constructor
  · intro ha
    obtain ⟨e,he,hm⟩ := List.mem_map.mp ha
    obtain ⟨k,hk,hid⟩ := (makeEntries_complete sort ht).numbered e he
    rw [makeEntries_length] at hk
    have hop : e.mark.op = a := by rw [hm]; rfl
    exact List.mem_map.mpr ⟨k,List.mem_range.mpr hk,by rw [← hop,mark_op,hid]⟩
  · intro ha
    obtain ⟨k,hk,rfl⟩ := List.mem_map.mp ha
    have hget := List.getElem?_eq_getElem (List.mem_range.mp hk)
    exact List.mem_map.mpr ⟨_,mem_makeEntries.mpr ⟨k,_,hget,.inl rfl⟩,rfl⟩

/-- `makeEntries` keeps what the history says. -/
theorem makeEntries_linearizable (object : Object ι ο σ) (sort : TimeSort ι ο)
    (ht : Timed history) : LinearizableHistory object (makeEntries sort history) ↔
      LinearizableOperations object history := by
  have hops := makeEntries_ops sort ht
  rw [LinearizableHistory,completes_iff]
  cases hh : history with
  | nil =>
    rw [hh] at hops
    rw [hops.eq_nil]
    exact iff_of_true orderable_nil orderable_nil
  | cons op₀ _ =>
    rw [← hh]
    have hget : ∀ a ∈ ops ((makeEntries sort history).map Entry.mark), ∃ k : Nat, ∃ op,
        a = k ∧ history[k]? = some op ∧ history.getD a.toNat op₀ = op := by
      intro a ha
      obtain ⟨k,hk,rfl⟩ := List.mem_map.mp (hops.mem_iff.mp ha)
      have hk := List.getElem?_eq_getElem (List.mem_range.mp hk)
      exact ⟨k,_,rfl,hk,by simp [hk]⟩
    refine orderable_renamed (f := fun a => history.getD a.toNat op₀) ?_ ?_ ?_
    · refine (hops.map _).trans ?_
      rw [List.map_map]
      refine List.Perm.of_eq (List.ext_getElem (by simp) (fun k h₁ h₂ => ?_))
      simp [h₂]
    · intro a ha b hb
      obtain ⟨i,op,rfl,hi,hop⟩ := hget a ha
      obtain ⟨j,op',rfl,hj,hop'⟩ := hget b hb
      rw [hop,hop']
      exact entries_order hi hj
    · intro a ha s
      obtain ⟨k,op,rfl,hk,hop⟩ := hget a ha
      rw [hop]
      exact (makeEntries_step object ht hk s).symm

theorem operations_complete (sort : TimeSort ι ο) (model : FilledModel ι ο σ)
    (ht : ∀ part ∈ model.partition history, Timed part) :
    ∀ part ∈ operationParts sort model history, Complete part := by
  intro part hp
  obtain ⟨part,hin,rfl⟩ := List.mem_map.mp hp
  exact makeEntries_complete sort (ht part hin)

theorem operations_decided (sort : TimeSort ι ο) (model : FilledModel ι ο σ)
    (hr : model.Respects) (history : List (Operation ι ο))
    (ht : ∀ part ∈ model.partition history, Timed part) (hne : model.partition history ≠ [])
    (computeInfo timeout : Bool) :
    Decides model.toObject computeInfo timeout (checkOperations sort model history)
      (∀ part ∈ model.partition history, LinearizableOperations model.toObject part) := by
  refine (checkParallel_decides model.toObject hr (operations_complete sort model ht) ?_
    computeInfo timeout).congr ?_
  · simpa [operationParts] using hne
  · rw [operationParts,List.forall_mem_map]
    exact forall₂_congr (fun part hp => makeEntries_linearizable model.toObject sort (ht part hp))

/-- States that are compared by `==` are equal only when they are the same. -/
theorem shallow_respects [DecidableEq σ] {model : Model ι ο σ} (h : model.equal = none) :
    (fillDefault model).Respects := by
  intro s t he i o hok
  obtain rfl : s = t := by simpa [fillDefault,h,shallowEqual] using he
  exact ⟨hok,by simp [fillDefault,h,shallowEqual]⟩

/-- For a model without a partition function `checkOperations` decides whether the history is
linearizable. -/
theorem checkOperations_decides [DecidableEq σ] (sort : TimeSort ι ο) (model : Model ι ο σ)
    (hp : model.partition = none) (hr : (fillDefault model).Respects)
    {history : List (Operation ι ο)} (ht : Timed history) (computeInfo timeout : Bool) :
    Decides (fillDefault model).toObject computeInfo timeout
      (checkOperations sort (fillDefault model) history)
      (LinearizableOperations (fillDefault model).toObject history) := by
  have hparts : (fillDefault model).partition history = [history] := by
    simp [fillDefault,hp,noPartition]
  have h := operations_decided sort (fillDefault model) hr history
  simp only [hparts,List.forall_mem_singleton] at h
  exact h ht (List.cons_ne_nil _ _) computeInfo timeout

def registerModel : Model (Option Bool) Bool Bool := ⟨none,none,false,register.step,none⟩

theorem checkOperations_decides_writeRead :
    Decides (fillDefault registerModel).toObject true true
      (checkOperations (stableSort _ _) (fillDefault registerModel)
        [⟨0,some true,0,true,3⟩,⟨1,none,1,true,2⟩])
      (LinearizableOperations (fillDefault registerModel).toObject
        [⟨0,some true,0,true,3⟩,⟨1,none,1,true,2⟩]) :=
  checkOperations_decides (stableSort _ _) registerModel rfl (shallow_respects rfl)
    (by simp [Timed]) true true

end

section
variable {ι ο σ : Type} {events : List (Event ι ο)}

/-! Events. -/

/-- The ids in the order in which `renumber` finds them. -/
def firsts : List Int → List (Event ι ο) → List Int
  | seen,[] => seen
  | seen,v :: events => if v.id ∈ seen then firsts seen events else firsts (seen ++ [v.id]) events

/-- The new id. -/
def newId (events : List (Event ι ο)) (id : Int) : Int := (firsts [] events).idxOf id

theorem firsts_extends (seen : List Int) (events : List (Event ι ο)) :
    seen <+: firsts seen events := by
  induction events generalizing seen with
  | nil => exact List.prefix_rfl
  | cons v events ih =>
    rw [firsts]
    split
    · exact ih seen
    · exact (List.prefix_append seen [v.id]).trans (ih _)

theorem firsts_nodup {seen : List Int} (h : seen.Nodup) (events : List (Event ι ο)) :
    (firsts seen events).Nodup := by
  induction events generalizing seen with
  | nil => exact h
  | cons v events ih =>
    rw [firsts]
    split
    · exact ih h
    · exact ih (List.nodup_append'.mpr ⟨h,List.nodup_singleton _,by simpa using ‹_›⟩)

theorem mem_firsts {seen : List Int} {a : Int} :
    a ∈ firsts seen events ↔ a ∈ seen ∨ a ∈ events.map Event.id := by
  induction events generalizing seen with
  | nil => simp [firsts]
  | cons v events ih =>
    rw [firsts]
    split
    · rw [ih]
      aesop
    · rw [ih]
      simp [or_assoc,eq_comm]

/-- The loop of `renumber` when it has found the ids `seen`. -/
theorem renumberFrom_eq (seen : List Int) (events : List (Event ι ο)) :
    renumberFrom (fun a => if a ∈ seen then some (seen.idxOf a : Int) else none) seen.length
      events = events.map (fun v => { v with id := ((firsts seen events).idxOf v.id : Int) }) := by
  induction events generalizing seen with
  | nil => rfl
  | cons v events ih =>
    by_cases hv : v.id ∈ seen
    · obtain ⟨l,hl⟩ := firsts_extends seen events
      simp only [renumberFrom,hv,if_true,ih,List.map_cons,firsts]
      rw [← hl,List.idxOf_append_of_mem hv]
    · have hm : Function.update (fun a => if a ∈ seen then some (seen.idxOf a : Int) else none) v.id
          (some (seen.length : Int)) =
          fun a => if a ∈ seen ++ [v.id] then some ((seen ++ [v.id]).idxOf a : Int) else none := by
        funext a
        by_cases ha : a = v.id
        · subst ha
          simp [List.idxOf_append_of_notMem hv]
        · by_cases hs : a ∈ seen
          · simp [ha,hs,List.idxOf_append_of_mem hs]
          · simp [ha,hs]
      obtain ⟨l,hl⟩ := firsts_extends (seen ++ [v.id]) events
      have hlen : ((seen.length : Int) + 1) = (seen ++ [v.id]).length := by simp
      simp only [renumberFrom,hv,if_false,hm,hlen,ih,List.map_cons,firsts]
      rw [← hl,List.idxOf_append_of_mem (by simp),List.idxOf_append_of_notMem hv]
      simp

theorem renumber_eq (events : List (Event ι ο)) :
    renumber events = events.map (fun v => { v with id := newId events v.id }) := by
  have h := renumberFrom_eq [] events
  simpa [renumber,newId] using h

theorem newId_inj {a b : Int} (ha : a ∈ events.map Event.id) (h : newId events a = newId events b) :
    a = b :=
  (List.idxOf_inj (mem_firsts.mpr (.inr ha))).mp (by simpa [newId] using h)

/-- An entry under another id. -/
def rename (f : Int → Int) (e : Entry ι ο) : Entry ι ο := { e with id := f e.id }

theorem rename_mark (f : Int → Int) (e : Entry ι ο) : (rename f e).mark = e.mark.map f := by
  cases hk : e.kind <;> simp [Entry.mark,rename,hk,Mark.map]

theorem convert_renamed (f : Int → Int) (events : List (Event ι ο)) :
    convertEntries (events.map (fun v => { v with id := f v.id })) =
      (convertEntries events).map (rename f) := by
  have hfrom : ∀ (events : List (Event ι ο)) (i : Nat),
      convertFrom i (events.map (fun v => { v with id := f v.id })) =
        (convertFrom i events).map (rename f) := by
    intro events
    induction events with
    | nil => exact fun _ => rfl
    | cons v events ih =>
      intro i
      simp only [List.map_cons,convertFrom,ih,rename]
  exact hfrom events 0

theorem convert_ids (events : List (Event ι ο)) :
    (convertEntries events).map Entry.id = events.map Event.id := by
  have hfrom : ∀ (events : List (Event ι ο)) (i : Nat),
      (convertFrom i events).map Entry.id = events.map Event.id := by
    intro events
    induction events with
    | nil => exact fun _ => rfl
    | cons v events ih => exact fun i => by simp [convertFrom,ih]
  exact hfrom events 0

/-- The value of an operation is the same under its new name. -/
theorem valueOf_renamed {α : Type} {f : Int → Int} {entries : List (Entry ι ο)} {a : Int}
    (hf : ∀ e ∈ entries, f e.id = f a → e.id = a) (kind : EntryKind) (pick : Value ι ο → Option α) :
    valueOf kind pick (entries.map (rename f)) (f a) = valueOf kind pick entries a := by
  induction entries with
  | nil => rfl
  | cons e entries ih =>
    have hid : f e.id = f a ↔ e.id = a := ⟨hf e List.mem_cons_self,fun h => by rw [h]⟩
    have ih := ih (fun e he => hf e (List.mem_cons_of_mem _ he))
    simp only [valueOf,List.map_cons,List.findSome?_cons,rename,hid] at ih ⊢
    rw [ih]

/-- What `checkEvents` expects of the events: every operation is called once with an input
and returns once, after that, with an output. -/
structure EventHistory (events : List (Event ι ο)) : Prop where
  formed : WellFormed ((convertEntries events).map Entry.mark)
  input : ∀ e ∈ convertEntries events, e.kind = .callEntry → ∃ i, e.value = .input i
  output : ∀ e ∈ convertEntries events, e.kind = .returnEntry → ∃ o, e.value = .output o

theorem newId_injOn (events : List (Event ι ο)) :
    Set.InjOn (newId events) {a | ∃ m ∈ (convertEntries events).map Entry.mark, m.op = a} := by
  rintro a ⟨m,hm,rfl⟩ b _ hab
  obtain ⟨e,he,rfl⟩ := List.mem_map.mp hm
  refine newId_inj ?_ hab
  rw [mark_op,← convert_ids]
  exact List.mem_map_of_mem he

theorem firsts_length (h : EventHistory events) :
    (firsts [] events).length = (convertEntries events).length / 2 := by
  have hperm : (firsts [] events).Perm (ops ((convertEntries events).map Entry.mark)) := by
    refine (List.perm_ext_iff_of_nodup (firsts_nodup List.nodup_nil events)
      h.formed.ops_nodup).mpr (fun a => ?_)
    rw [mem_firsts,← convert_ids,mem_ops]
    constructor
    · intro ha
      obtain ⟨e,he,rfl⟩ := List.mem_map.mp (ha.resolve_left (List.not_mem_nil))
      have hcall := h.formed.called (List.mem_map_of_mem he)
      rwa [mark_op] at hcall
    · intro ha
      obtain ⟨e,he,hm⟩ := List.mem_map.mp ha
      exact .inr (List.mem_map.mpr ⟨e,he,by rw [← mark_op,hm]; rfl⟩)
  have hlen := h.formed.length
  rw [List.length_map] at hlen
  rw [hperm.length_eq,hlen]
  omega

theorem renumbered_marks (events : List (Event ι ο)) :
    (convertEntries (renumber events)).map Entry.mark =
      ((convertEntries events).map Entry.mark).map (Mark.map (newId events)) := by
  rw [renumber_eq,convert_renamed,List.map_map,List.map_map]
  exact List.map_congr_left (fun e _ => rename_mark _ e)

theorem renumber_complete (h : EventHistory events) :
    Complete (convertEntries (renumber events)) where
  formed := by
    rw [renumbered_marks]
    exact h.formed.map (newId_injOn events)
  numbered e he := by
    rw [renumber_eq,convert_renamed] at he ⊢
    obtain ⟨e,hin,rfl⟩ := List.mem_map.mp he
    refine ⟨(firsts [] events).idxOf e.id,?_,rfl⟩
    rw [List.length_map,← firsts_length h]
    refine List.idxOf_lt_length_iff.mpr (mem_firsts.mpr (.inr ?_))
    rw [← convert_ids]
    exact List.mem_map_of_mem hin
  input e he hk := by
    rw [renumber_eq,convert_renamed] at he
    obtain ⟨e,hin,rfl⟩ := List.mem_map.mp he
    exact h.input e hin hk
  output e he hk := by
    rw [renumber_eq,convert_renamed] at he
    obtain ⟨e,hin,rfl⟩ := List.mem_map.mp he
    exact h.output e hin hk

/-- `renumber` keeps what the events say. -/
theorem renumber_linearizable (object : Object ι ο σ) (h : EventHistory events) :
    LinearizableHistory object (convertEntries (renumber events)) ↔
      LinearizableHistory object (convertEntries events) := by
  rw [LinearizableHistory,renumbered_marks]
  refine completes_map h.formed (newId_injOn events) (fun a ha s => ?_)
  have hf : ∀ e ∈ convertEntries events, newId events e.id = newId events a → e.id = a := by
    intro e he hea
    refine newId_inj ?_ hea
    rw [← convert_ids]
    exact List.mem_map_of_mem he
  rw [entryStep,entryStep,renumber_eq,convert_renamed,valueOf_renamed hf,valueOf_renamed hf]

/-- `checkEvents` decides whether the parts of a history are linearizable. -/
theorem checkEvents_decides (model : FilledModel ι ο σ) (hr : model.Respects)
    (history : List (Event ι ο)) (he : ∀ part ∈ model.partitionEvent history, EventHistory part)
    (hne : model.partitionEvent history ≠ []) (computeInfo timeout : Bool) :
    Decides model.toObject computeInfo timeout (checkEvents model history)
      (∀ part ∈ model.partitionEvent history,
        LinearizableHistory model.toObject (convertEntries part)) := by
  refine (checkParallel_decides model.toObject hr ?_ ?_ computeInfo timeout).congr ?_
  · intro part hp
    obtain ⟨part,hin,rfl⟩ := List.mem_map.mp hp
    exact renumber_complete (he part hin)
  · simpa [eventParts] using hne
  · rw [eventParts,List.forall_mem_map]
    exact forall₂_congr (fun part hp => renumber_linearizable model.toObject (he part hp))

theorem checkEvents_decides_writeRead :
    Decides (fillDefault registerModel).toObject true true
      (checkEvents (fillDefault registerModel) [⟨0,.callEvent,.input (some true),7⟩,⟨1,.callEvent,.input none,3⟩,
        ⟨1,.returnEvent,.output true,3⟩,⟨0,.returnEvent,.output true,7⟩])
      (∀ part ∈ [[⟨0,.callEvent,.input (some true),7⟩,⟨1,.callEvent,.input none,3⟩,
        ⟨1,.returnEvent,.output true,3⟩,⟨0,.returnEvent,.output true,7⟩]],
        LinearizableHistory (fillDefault registerModel).toObject (convertEntries part)) := by
  refine checkEvents_decides (fillDefault registerModel) (shallow_respects rfl) _ ?_ ?_ true true
  · intro part hp
    rw [List.mem_singleton.mp hp]
    exact ⟨⟨by decide,by decide⟩,by simp [convertEntries,convertFrom],
      by simp [convertEntries,convertFrom]⟩
  · exact List.cons_ne_nil _ _

end

end MapReduce.Proofs
