import Mathlib
import MapReduce.Library.Writers
import MapReduce.Proofs.DataPath
import MapReduce.Proofs.Executions

namespace MapReduce

/-- The output that a process has open, and where its handle stands. -/
def Pc.writer : Pc → Option (Int × Nat)
  | .reduceWrite result file _ => some (result.partition,file.offset)
  | _ => none

/-- The output that a process has created and not yet been answered about. -/
def Pc.output : Pc → Option Int
  | .reduceWrite result _ _ => some result.partition
  | .update result | .waiting (.update result) =>
    if result.phase = .reducePhase then some result.partition else none
  | _ => none

namespace Proofs
open Dispatch Files

variable {files : List String} {nReduce : Int} {b b' : Schedule files nReduce} {env : Setup}
variable {s t : System} {fs fs' : FileSystem} {text : Int → Bytes}

/-- What `ReducerTask` of process `p` writes for partition `j`. -/
def outputText (env : Setup) (p : Nat) (fs : FileSystem) (j : Int) : Bytes :=
  (reduceRecords env.reducef ((env.sort p).sort (gathered env.go fs j))).flatMap formatRecord

/-- A reducer has read some of the files that its glob found, in their order. -/
def Reading (env : Setup) (fs : FileSystem) : Pc → Prop
  | .reduceRead r names acc => ∃ done, glob fs (globPattern r.partition) = done ++ names ∧
      acc = done.flatMap (fun name => decodeFile env.go.json ((fs.read name).getD []))
  | _ => True

/-- What a reducer has still to write is the rest of the text of its partition. -/
def Writing (text : Int → Bytes) : Pc → Prop
  | .reduceWrite r file records => ∃ before,
      text r.partition = before ++ records.flatMap formatRecord ∧ file.offset = before.length
  | _ => True

/-- Some process has created output `j` and waits for its answer, or the task is done. -/
def Produced (b : Schedule files nReduce) (s : System) (j : Int) : Prop :=
  (∃ p, (s.pc p).output = some j) ∨ ∃ k : Nat, j = k ∧ b.Finished (files.length + k)

def Standing (s : System) (j : Int) (o : Nat) : Prop := ∃ p, (s.pc p).writer = some (j,o)

/-- Every output that was produced holds its text, but for what the handles that are still
open will write. -/
structure Outputs (env : Setup) (b : Schedule files nReduce) (text : Int → Bytes)
    (s : System) : Prop where
  alive : ∀ p q, s.pc p ≠ .dead q
  reading : ∀ p, Reading env s.fs (s.pc p)
  writing : ∀ p, Writing text (s.pc p)
  produced : ∀ j, Produced b s j → b.FirstDone ∧ ∃ p, text j = outputText env p s.fs j
  covered : ∀ j, Produced b s j →
    ∃ cur, s.fs.read (outputName j) = some cur ∧ Covers (text j) cur (Standing s j)

theorem Reading.frame (h : Reading env fs pc)
    (hf : ∀ name, taskPrefix.toList <+: name.toList → fs'.read name = fs.read name) :
    Reading env fs' pc := by
  cases pc with
  | reduceRead r names acc =>
    obtain ⟨done,hg,hacc⟩ := h
    refine ⟨done,by rw [glob_frame _ hf,hg],?_⟩
    rw [hacc]
    refine List.flatMap_congr (fun name hn => ?_)
    have hm : name ∈ glob fs (globPattern r.partition) := by
      rw [hg]
      exact List.mem_append_left _ hn
    have ha := List.mem_filter.mp ((List.perm_insertionSort _ _).mem_iff.mp hm)
    rw [hf name (accepts_task ha.2)]
  | _ => trivial

theorem Advances.reading (ha : Advances env p fs pc e) (h : Reading env fs pc) :
    Reading env fs e.pc := by
  cases ha with
  | glob => exact ⟨[],rfl,rfl⟩
  | read hs =>
    rename_i name data r names acc
    obtain ⟨done,hg,hacc⟩ := h
    exact ⟨done ++ [name],by simp [hg],by simp [hacc,hs]⟩
  | _ => trivial

theorem Reading.gathered (h : Reading env fs (.reduceRead r [] acc)) :
    acc = gathered env.go fs r.partition := by
  obtain ⟨done,hg,hacc⟩ := h
  rw [Proofs.gathered,hg,hacc,List.append_nil]

/-- Once the map tasks are done, a step of a process leaves their files alone. -/
theorem Sound.task_frame (h : Sound env b s) (hd : b.FirstDone)
    (hn : next env p s.fs (s.pc p) = some e) (hname : taskPrefix.toList <+: name.toList) :
    (e.apply s.fs).read name = s.fs.read name := by
  refine apply_read e (fun op ho => ?_)
  have hop : s.fileOp env (.advance p) = some op := by
    simp only [System.fileOp,hn,Option.bind_some,ho]
  obtain ⟨r,hr⟩ := h.writes_output hd hop
  rw [hr]
  intro he
  subst he
  exact output_not_task r hname

theorem reading_firstDone (h : Fair b wid pc) (hr : ¬ b.FirstDone) : Reading env fs pc := by
  cases pc with
  | reduceRead r names acc => exact absurd h.1 hr
  | _ => trivial

theorem Sound.reading (h : Sound env b s) (hn : next env p s.fs (s.pc p) = some e)
    (hr : ∀ o, Reading env s.fs (s.pc o)) (o : Nat) :
    Reading env (s.advanced p e).fs ((s.advanced p e).pc o) := by
  have hread : Reading env s.fs ((s.advanced p e).pc o) := by
    rw [advanced_pc]
    split
    · exact (advances hn).reading (hr p)
    · exact hr o
  have hfair : Fair b (env.worker o).id ((s.advanced p e).pc o) := by
    rw [advanced_pc]
    split
    · rename_i ho
      subst ho
      exact (advances hn).fair (h.custody.fair o)
    · exact h.custody.fair o
  by_cases hd : b.FirstDone
  · exact hread.frame (fun name hname => h.task_frame hd hn hname)
  · exact reading_firstDone hfair hd

theorem standing_advanced : Standing (s.advanced p e) j o ↔
    e.pc.writer = some (j,o) ∨ ∃ q, q ≠ p ∧ (s.pc q).writer = some (j,o) := by
  constructor
  · intro hx
    obtain ⟨q,hq⟩ := hx
    rw [advanced_pc] at hq
    split at hq
    · exact Or.inl hq
    · exact Or.inr ⟨q,‹_›,hq⟩
  · intro hor
    rcases hor with hw | ⟨q,hne,hq⟩
    · exact ⟨p,by rw [advanced_pc,if_pos rfl]; exact hw⟩
    · exact ⟨q,by rw [advanced_pc,if_neg hne]; exact hq⟩

theorem produced_advanced (h : Produced b (s.advanced p e) j) :
    e.pc.output = some j ∨ Produced b s j := by
  rcases h with ⟨q,hq⟩ | hf
  · rw [advanced_pc] at hq
    split at hq
    · exact Or.inl hq
    · exact Or.inr (Or.inl ⟨q,hq⟩)
  · exact Or.inr (Or.inr hf)

/-- What a step of process `p` has to see to, for the outputs that are produced after it. -/
theorem Outputs.advance_of (h : Outputs env b text s) (hs : Sound env b s)
    (hn : next env p s.fs (s.pc p) = some e) (hd : ∀ q, e.pc ≠ .dead q) {text' : Int → Bytes}
    (hkeep : ∀ q, q ≠ p → Writing text' (s.pc q)) (hw : Writing text' e.pc)
    (hp : ∀ j, e.pc.output = some j ∨ Produced b s j →
      b.FirstDone ∧ ∃ q, text' j = outputText env q s.fs j)
    (hc : ∀ j, e.pc.output = some j ∨ Produced b s j →
      ∃ cur, (e.apply s.fs).read (outputName j) = some cur ∧
        Covers (text' j) cur (Standing (s.advanced p e) j)) :
    Outputs env b text' (s.advanced p e) where
  alive q := by
    rw [advanced_pc]
    split
    · exact hd
    · exact h.alive q
  reading := hs.reading hn h.reading
  writing q := by
    rw [advanced_pc]
    split
    · exact hw
    · exact hkeep q ‹_›
  produced j hj := by
    obtain ⟨hf,q,hq⟩ := hp j (produced_advanced hj)
    refine ⟨hf,q,hq.trans ?_⟩
    unfold outputText
    rw [← gathered_frame j (fun name hname => hs.task_frame hf hn hname)]
    rfl
  covered j hj := hc j (produced_advanced hj)

theorem writing_none (h : pc.writer = none) : Writing text pc := by
  cases pc with
  | reduceWrite r file records => cases h
  | _ => trivial

/-- An output that a step does not write, and that the process has not open short of its
end, stays covered. -/
theorem Outputs.kept (h : Outputs env b text s) (hprod : Produced b s j)
    (hop : (e.apply s.fs).read (outputName j) = s.fs.read (outputName j))
    (hend : ∀ o, (s.pc p).writer = some (j,o) → (text j).length ≤ o) :
    ∃ cur, (e.apply s.fs).read (outputName j) = some cur ∧
      Covers (text j) cur (Standing (s.advanced p e) j) := by
  obtain ⟨cur,hcur,hcov⟩ := h.covered j hprod
  refine ⟨cur,hop.trans hcur,hcov.mono (fun o hlt ⟨q,hq⟩ => ?_)⟩
  refine standing_advanced.mpr (Or.inr ⟨q,?_,hq⟩)
  intro he
  subst he
  have := hend o hq
  omega

/-- A step that writes no output and after which the process has none open. -/
theorem Outputs.settle (h : Outputs env b text s) (hs : Sound env b s)
    (hn : next env p s.fs (s.pc p) = some e) (hd : ∀ q, e.pc ≠ .dead q)
    (hout : ∀ j, e.pc.output = some j → (s.pc p).output = some j) (hw : e.pc.writer = none)
    (hend : ∀ j o, (s.pc p).writer = some (j,o) → (text j).length ≤ o)
    (hop : ∀ j, (e.apply s.fs).read (outputName j) = s.fs.read (outputName j)) :
    Outputs env b text (s.advanced p e) := by
  have hold : ∀ j, e.pc.output = some j ∨ Produced b s j → Produced b s j :=
    fun j hj => hj.elim (fun ho => Or.inl ⟨p,hout j ho⟩) id
  refine h.advance_of hs hn hd (fun q _ => h.writing q) (writing_none hw)
    (fun j hj => h.produced j (hold j hj)) (fun j hj => ?_)
  exact h.kept (hold j hj) (hop j) (hend j)

/-- The text of an output may change for who has it not open. -/
theorem Writing.update (h : Writing text pc)
    (hs : ∀ o, pc.writer = some (j,o) → bytes = text j) :
    Writing (Function.update text j bytes) pc := by
  cases pc with
  | reduceWrite r file records =>
    obtain ⟨before,hb,ho⟩ := h
    refine ⟨before,?_,ho⟩
    by_cases he : r.partition = j
    · subst he
      rw [Function.update_self,hs file.offset rfl]
      exact hb
    · rw [Function.update_of_ne he]
      exact hb
  | _ => trivial

/-- A process creates the output of its partition, with what it is going to write. Whoever
else has that output open is writing the same. -/
theorem Outputs.create (h : Outputs env b text s) (hs : Sound env b s)
    (hpc : s.pc p = .reduceRead r [] acc) (hn : next env p s.fs (s.pc p) = some e)
    (hsole : ∀ q o, q ≠ p → (s.pc q).writer = some (r.partition,o) →
      outputText env p s.fs r.partition = text r.partition) :
    Outputs env b (Function.update text r.partition (outputText env p s.fs r.partition))
      (s.advanced p e) := by
  have hread := h.reading p
  have hfair := hs.custody.fair p
  rw [hpc] at hread hfair hn
  have hn' := hn
  cases hn'
  refine h.advance_of hs (by rw [hpc]; exact hn) (fun q hq => by cases hq) ?_ ?_ ?_ ?_
  · exact fun q hne => (h.writing q).update (fun o ho => hsole q o hne ho)
  · refine ⟨[],?_,rfl⟩
    rw [Function.update_self,hread.gathered]
    rfl
  · intro j hj
    by_cases he : j = r.partition
    · subst he
      exact ⟨hfair.1,p,by rw [Function.update_self]⟩
    · rw [Function.update_of_ne he]
      refine h.produced j (hj.resolve_left ?_)
      intro ho
      exact he (Option.some.inj ho).symm
  · intro j hj
    by_cases he : j = r.partition
    · subst he
      refine ⟨[],(Store.read_create s.fs _ _).trans (if_pos rfl),covers_create _ ?_⟩
      exact standing_advanced.mpr (Or.inl rfl)
    · rw [Function.update_of_ne he]
      have hprod := hj.resolve_left (fun ho => he (Option.some.inj ho).symm)
      refine h.kept hprod ?_ (fun o ho => ?_)
      · refine (Store.read_create s.fs _ _).trans (if_neg ?_)
        exact fun hne => he (output_inj hne)
      · rw [hpc] at ho
        cases ho

/-- A process writes one record through its handle. -/
theorem Outputs.append (h : Outputs env b text s) (hs : Sound env b s)
    (hpc : s.pc p = .reduceWrite r file (record :: records))
    (hn : next env p s.fs (s.pc p) = some e) : Outputs env b text (s.advanced p e) := by
  have hw := h.writing p
  have hfair := hs.custody.fair p
  rw [hpc] at hw hfair hn
  obtain ⟨before,hb,ho⟩ := hw
  have hn' := hn
  cases hn'
  have hprod : Produced b s r.partition := Or.inl ⟨p,by rw [hpc]; rfl⟩
  refine h.advance_of hs (by rw [hpc]; exact hn) (fun q hq => by cases hq)
    (fun q _ => h.writing q) ?_ ?_ ?_
  · exact ⟨before ++ formatRecord record,by rw [hb]; simp,by simp [ho]⟩
  · intro j hor
    rcases hor with hj | hj
    · cases hj
      exact h.produced _ hprod
    · exact h.produced j hj
  · intro j hj
    by_cases he : j = r.partition
    · subst he
      obtain ⟨cur,hcur,hcov⟩ := h.covered _ hprod
      refine ⟨overwrite 0 cur file.offset (formatRecord record),?_,?_⟩
      · refine (Store.read_write s.fs 0 _ _ _ _).trans ?_
        rw [if_pos hfair.2.symm,hfair.2,hcur]
        rfl
      · rw [ho]
        have hb : text r.partition =
            before ++ (formatRecord record ++ records.flatMap formatRecord) := hb
        refine hcov.write hb ?_ ?_
        · intro o hx hne
          obtain ⟨q,hq⟩ := hx
          refine standing_advanced.mpr (Or.inr ⟨q,?_,hq⟩)
          intro heq
          subst heq
          rw [hpc] at hq
          cases hq
          exact hne ho
        · exact standing_advanced.mpr (Or.inl (by rw [← ho]; rfl))
    · have hprod := hj.resolve_left (fun ho => he (Option.some.inj ho).symm)
      refine h.kept hprod ?_ (fun o hw => ?_)
      · refine (Store.read_write s.fs 0 _ _ _ _).trans (if_neg ?_)
        rw [hfair.2]
        exact fun hne => he (output_inj hne)
      · rw [hpc] at hw
        cases hw
        exact absurd rfl he

theorem Granted.map_output (hg : ∃ k, Granted b wid r k) (hp : r.phase = .mapPhase) (q : Nat)
    (j : Int) : outputName j ≠ intermediateName r.taskId q := by
  obtain ⟨k,hk⟩ := hg
  rcases hk.stage with ⟨_,f,_,rfl⟩ | ⟨hr,_⟩
  · exact output_ne_intermediate j k q
  · rw [hp] at hr
    cases hr

theorem Outputs.advance (h : Outputs env b text s) (hs : Sound env b s)
    (hn : next env p s.fs (s.pc p) = some e) (hd : ∀ q, e.pc ≠ .dead q)
    (hsole : ∀ r acc q o, s.pc p = .reduceRead r [] acc → q ≠ p →
      (s.pc q).writer = some (r.partition,o) →
        outputText env p s.fs r.partition = text r.partition) :
    ∃ text', Outputs env b text' (s.advanced p e) := by
  have hfair := hs.custody.fair p
  have hwr := h.writing p
  have ha := advances hn
  -- The steps outside the loop of writes, from where the process has no output open.
  have hquiet : (s.pc p).writer = none → (∀ j, e.pc.output = some j → (s.pc p).output = some j) →
      e.pc.writer = none → (∀ op, e.op = some op → ∀ j, outputName j ≠ op.name) →
        ∃ text', Outputs env b text' (s.advanced p e) := by
    intro hw hout hw' hop
    refine ⟨text,h.settle hs hn hd hout hw' (fun j o ho => ?_) (fun j => ?_)⟩
    · rw [hw] at ho
      cases ho
    · exact apply_read e (fun op ho => hop op ho j)
  generalize hpc : s.pc p = pc at ha hfair hwr hquiet
  cases ha with
  | reduceCreate => exact ⟨_,h.create hs hpc hn (fun q o => hsole _ _ q o hpc)⟩
  | reduceWrite => exact ⟨_,h.append hs hpc hn⟩
  | reduceDone =>
    obtain ⟨before,hb,ho⟩ := hwr
    refine ⟨text,h.settle hs hn hd (fun j hj => ?_) rfl (fun j o hw => ?_) (fun j => rfl)⟩
    · rw [hpc]
      rw [Pc.output,if_pos hfair.1.2.2] at hj
      exact hj
    · rw [hpc] at hw
      cases hw
      simp [hb,ho]
  | mapCreate _ =>
    refine hquiet rfl (fun j hj => by cases hj) rfl (fun op ho j => ?_)
    cases ho
    exact Granted.map_output hfair.1 hfair.2 _ j
  | mapWrite =>
    refine hquiet rfl (fun j hj => by cases hj) rfl (fun op ho j => ?_)
    cases ho
    rw [FileOp.name,hfair.2]
    exact Granted.map_output hfair.1.1 hfair.1.2 _ j
  | mapDone _ =>
    refine hquiet rfl (fun j hj => ?_) rfl (fun op ho => by cases ho)
    rw [Pc.output,hfair.2] at hj
    cases hj
  | report => exact hquiet rfl (fun j hj => hj) rfl (fun op ho => by cases ho)
  | _ => exact hquiet rfl (fun j hj => by cases hj) rfl (fun op ho => by cases ho)

/-- A report that is accepted is one of an output that its process has produced. -/
theorem Served.produced (hs : Served b s.coord (env.worker p) q b' c' a) (hc : Custody env b s)
    (hq : s.pc p = .waiting q) (hj : Produced b' (afterServe s p (q.answered a) c') j) :
    Produced b s j := by
  have hout : (q.answered a).output = none := by cases hs <;> rfl
  rcases hj with ⟨o,ho⟩ | ⟨k,hk,hf⟩
  · rw [afterServe_pc] at ho
    split at ho
    · rw [hout] at ho
      cases ho
    · exact Or.inl ⟨o,ho⟩
  · cases hs with
    | registered _ _ _ | unknown _ | idle _ | rejected _ _ => exact Or.inr ⟨k,hk,hf⟩
    | granted _ _ hr _ _ _ => exact Or.inr ⟨k,hk,(Board.grant_finished b _ hr).mp hf⟩
    | accepted hrep _ _ =>
      rcases (Board.finish_finished b (Board.pending_lt hrep.pending)).mp hf with hf | rfl
      · exact Or.inr ⟨k,hk,hf⟩
      · obtain ⟨ht,hplan⟩ := reports_held (hc.fair p) (by rw [hq]; rfl) hrep
        rw [hq] at ht
        refine Or.inl ⟨p,?_⟩
        rcases plan_cases hplan with ⟨f,hf,_⟩ | ⟨j',hj',_,rfl⟩
        · have := (List.getElem?_eq_some_iff.mp hf).1
          omega
        · rw [hq,hk]
          have : j' = k := by omega
          subst this
          rfl

theorem Outputs.serve (h : Outputs env b text s) (hc : Custody env b s)
    (hq : s.pc p = .waiting q) (hs : Served b s.coord (env.worker p) q b' c' a) :
    Outputs env b' text (afterServe s p (q.answered a) c') where
  alive o q' := by
    rw [afterServe_pc]
    split
    · cases hs <;> exact fun he => by cases he
    · exact h.alive o q'
  reading o := by
    rw [afterServe_pc]
    split
    · cases hs <;> trivial
    · exact h.reading o
  writing o := by
    rw [afterServe_pc]
    split
    · cases hs <;> trivial
    · exact h.writing o
  produced j hj := by
    obtain ⟨hf,htext⟩ := h.produced j (hs.produced hc hq hj)
    exact ⟨hs.moves.firstDone hf,htext⟩
  covered j hj := by
    obtain ⟨cur,hcur,hcov⟩ := h.covered j (hs.produced hc hq hj)
    refine ⟨cur,hcur,hcov.mono (fun o _ ⟨x,hx⟩ => ⟨x,?_⟩)⟩
    rw [afterServe_pc,if_neg]
    · exact hx
    · intro heq
      subst heq
      rw [hq] at hx
      cases hx

theorem Outputs.step (h : Outputs env b text s) (hs : Sound env b s)
    (hst : Stepped env b s a b' t) (hok : s.crashes env a = false)
    (hsole : ∀ p r acc q o, s.pc p = .reduceRead r [] acc → q ≠ p →
      (s.pc q).writer = some (r.partition,o) →
        outputText env p s.fs r.partition = text r.partition) :
    ∃ text', Outputs env b' text' t := by
  cases hst with
  | advance hn =>
    refine h.advance hs hn (fun q he => ?_) (hsole _)
    simp only [System.crashes,hn,Option.any_some,he] at hok
    cases hok
  | serve hq _ hs' => exact ⟨text,h.serve hs.custody hq hs'⟩
  | serveDead hq _ _ => exact absurd hq (h.alive _ _)
  | close _ =>
    rename_i p file handles hc
    have hpc := close_pc s p handles
    refine ⟨text,fun o => hpc o ▸ h.alive o,fun o => hpc o ▸ h.reading o,
      fun o => hpc o ▸ h.writing o,?_,?_⟩
    · intro j hj
      exact h.produced j (by simpa only [Produced,hpc] using hj)
    · intro j hj
      obtain ⟨cur,hcur,hcov⟩ := h.covered j (by simpa only [Produced,hpc] using hj)
      exact ⟨cur,hcur,hcov.mono (fun o _ ⟨x,hx⟩ => ⟨x,by rw [hpc]; exact hx⟩)⟩
  | crash _ => cases hok

theorem start_outputs (env : Setup) (nReduce : Int) (fs : FileSystem) :
    Outputs env (Board.blank : Schedule files nReduce) (fun _ => [])
      (System.start files nReduce fs) where
  alive _ _ h := by cases h
  reading _ := trivial
  writing _ := trivial
  produced j hj := by
    rcases hj with ⟨_,h⟩ | ⟨_,_,e,he,_⟩
    · cases h
    · simp [Board.blank] at he
  covered j hj := by
    rcases hj with ⟨_,h⟩ | ⟨_,_,e,he,_⟩
    · cases h
    · simp [Board.blank] at he

theorem Advances.tidy (ha : Advances env p fs pc e) (hf : Fair b wid pc)
    (hp : Progress env fs pc) (ht : Tidy files nReduce fs) : Tidy files nReduce (e.apply fs) := by
  intro name hname hs
  by_cases hop : ∃ op, e.op = some op ∧ name = op.name
  · obtain ⟨op,ho,rfl⟩ := hop
    cases ha with
    | mapCreate hq =>
      cases ho
      obtain ⟨⟨k,hk⟩,hphase⟩ := hf
      rcases hk.stage with ⟨_,f,hfile,rfl⟩ | ⟨hr,_⟩
      · have hq : (_ : Int) < nReduce := hq
        exact ⟨k,(List.getElem?_eq_some_iff.mp hfile).1,_,by omega,rfl⟩
      · rw [hphase] at hr
        cases hr
    | mapWrite =>
      cases ho
      obtain ⟨_,_,_,_,_,_,hread,_⟩ := hp
      exact ht _ hname (by rw [FileOp.name,hread]; rfl)
    | reduceCreate =>
      cases ho
      exact absurd hname (output_not_task _)
    | reduceWrite =>
      cases ho
      rw [FileOp.name,hf.2] at hname
      exact absurd hname (output_not_task _)
    | _ => cases ho
  · rw [apply_read e (fun op ho he => hop ⟨op,ho,he⟩)] at hs
    exact ht name hname hs

theorem Stepped.tidy (hst : Stepped env b s a b' t) (hs : Sound env b s)
    (ht : Tidy files nReduce s.fs) : Tidy files nReduce t.fs := by
  cases hst with
  | advance hn => exact (advances hn).tidy (hs.custody.fair _) (hs.mapFiles.progress _) ht
  | serve _ _ _ | serveDead _ _ _ | close _ | crash _ => exact ht

/-- Once the map tasks are done, a reducer gathers the pairs of its partition that the
job's map calls emit, as the codec leaves them. -/
theorem Sound.gathered_job (h : Sound env b s) (ht : Tidy files nReduce s.fs)
    (hd : b.FirstDone) (hr : r < nReduce.toNat) :
    (gathered env.go s.fs r).Perm ((inPartition env.go nReduce r
      (allPairs env.mapf env.input files)).map KeyValue.repair) := by
  have hdone : ∀ (m : Nat) (f : String), files[m]? = some f → ∃ content,
      env.input f = some content ∧ ∀ q < nReduce.toNat,
        s.fs.read (intermediateName (taskName m) q) =
          some (partitionContent env.go nReduce (env.mapf f content) q) :=
    fun m f hm => h.mapFiles.done m f hm (hd m (List.getElem?_eq_some_iff.mp hm).1)
  have hholds : Holds s.fs files.length nReduce.toNat := by
    refine ht.holds (fun m hm q hq => ?_)
    obtain ⟨_,_,hw⟩ := hdone m files[m] (List.getElem?_eq_getElem hm)
    rw [hw q hq]
    rfl
  refine gathered_repaired hholds hr (fun m f hm => ?_)
  obtain ⟨content,hc,hw⟩ := hdone m f hm
  exact ⟨env.mapf f content,by rw [hc]; exact List.Perm.refl _,hw r hr⟩

end Proofs

end MapReduce
