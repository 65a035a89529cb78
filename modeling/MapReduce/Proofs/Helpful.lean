import Mathlib
import MapReduce.Proofs.Quiescence
import MapReduce.Proofs.Liveness

namespace MapReduce

/-- The process has started and has neither left nor died. -/
def Pc.running : Pc → Bool
  | .offline | .stopped | .dead _ => false
  | _ => true

/-- How far a process is from the end of the cycle it is in: the stage first, then what is
left of the loops of the stage. -/
def Pc.distance : Pc → Nat ×ₗ Nat ×ₗ Nat
  | .stopped | .dead _ => toLex (0,toLex (0,0))
  | .waiting .fetch => toLex (1,toLex (0,0))
  | .fetch => toLex (2,toLex (0,0))
  | .registerReply _ | .updateReply _ _ => toLex (3,toLex (0,0))
  | .waiting .register | .waiting (.update _) => toLex (4,toLex (0,0))
  | .register | .update _ => toLex (5,toLex (0,0))
  | .offline => toLex (6,toLex (0,0))
  | .reduceWrite _ _ records => toLex (6,toLex (records.length,0))
  | .reduceRead _ files _ => toLex (7,toLex (files.length,0))
  | .mapNext result _ partitionID => toLex (7,toLex (result.nReduce.toNat - partitionID,0))
  | .mapWrite result _ partitionID _ pairs =>
    toLex (7,toLex (result.nReduce.toNat - (partitionID + 1),pairs.length + 1))
  | .mapRead _ | .reduceGlob _ => toLex (8,toLex (0,0))
  | .fetchReply _ => toLex (9,toLex (0,0))

/-- The process is alive and nothing it was told so far makes it leave. -/
def Pc.asks (pc : Pc) : Prop := ¬ pc.leaving ∧ ∀ q, pc ≠ .dead q

/-- A step of process `p`, or of the coordinator for it. -/
def Action.drives (p : Nat) (a : Action) : Prop := a = .advance p ∨ a = .serve p

namespace Proofs
open Dispatch Files

variable {files : List String} {nReduce : Int} {b b' : Schedule files nReduce} {env : Setup}
variable {s t : System} {fs : FileSystem}

theorem distance_lt {i j m n k l : Nat} :
    (toLex (i,toLex (m,k)) : Nat ×ₗ Nat ×ₗ Nat) < toLex (j,toLex (n,l)) ↔
      i < j ∨ (i = j ∧ (m < n ∨ (m = n ∧ k < l))) := by
  rw [Prod.Lex.toLex_lt_toLex,Prod.Lex.toLex_lt_toLex]

/-- Every step of a process of its own brings it closer to the end of its cycle. -/
theorem Advances.closer (ha : Advances env p fs pc e) : e.pc.distance < pc.distance := by
  cases ha with
  | mapCreate hq =>
    refine distance_lt.mpr (Or.inr ⟨rfl,Or.inl ?_⟩)
    omega
  | mapClose | mapWrite | reduceWrite | read _ => exact distance_lt.mpr (by simp)
  | leave _ _ => exact distance_lt.mpr (by simp)
  | _ => exact distance_lt.mpr (Or.inl (by decide))

/-- With the board as it is, the process gets there by its own steps: it holds a task, or a
task waits and it will ask for it. -/
def Helpful (b : Schedule files nReduce) (pc : Pc) : Prop :=
  (∃ g, pc.task = some g ∧ g.taskAvailable = true) ∨ (b.Ready ∧ pc.asks)

theorem Granted.working (h : ∃ k, Granted b wid r k) :
    r.phase = .mapPhase ∨ r.phase = .reducePhase := by
  obtain ⟨k,hk⟩ := h
  rcases hk.stage with ⟨hp,_⟩ | ⟨hp,_⟩
  · exact Or.inl hp
  · exact Or.inr hp

theorem Advances.helpful (ha : Advances env p fs pc e) (hf : Fair b wid pc) (h : Helpful b pc)
    (hd : ∀ q, e.pc ≠ .dead q) : Helpful b e.pc := by
  rcases h with ⟨g,ht,hg⟩ | ⟨hr,hl,_⟩
  · exact Or.inl ⟨g,ha.task_next ht (Granted.working (hf.granted ht hg)) hd,hg⟩
  · exact Or.inr ⟨hr,fun h => hl (ha.leaving hf h),hd⟩

/-- The only request that a process has under way while it holds a task is the report. -/
theorem request_task {pc : Pc} (hq : pc.request = some q) (ht : pc.task = some g) :
    q = .update g := by
  cases pc with
  | waiting q' =>
    cases hq
    cases q <;> cases ht
    rfl
  | dead q' =>
    cases hq
    cases q <;> cases ht
    rfl
  | _ => cases hq

/-- A report under way of a task that was granted is accepted. -/
theorem Served.reported (hc : Custody env b s) (hid : (env.worker p).id ≠ "")
    (hq : (s.pc p).request = some q) (ht : (s.pc p).task = some g) (hg : g.taskAvailable = true)
    (hs : Served b s.coord (env.worker p) q b' c' a) : b'.work < b.work := by
  obtain ⟨k,hk⟩ := (hc.fair p).granted ht hg
  have hupd := request_task hq ht
  subst hupd
  cases hs with
  | rejected hn _ =>
    obtain ⟨hplan,hown⟩ := hk
    exact absurd ⟨hid,hown,g,hplan,rfl,rfl⟩ (hn k)
  | accepted hk _ _ => exact Board.work_finish hk.pending

/-- An answer to a helpful process takes work off the board, or brings the process closer. -/
theorem Served.helpful (hc : Custody env b s) (hid : (env.worker p).id ≠ "")
    (hq : s.pc p = .waiting q) (hs : Served b s.coord (env.worker p) q b' c' a)
    (h : Helpful b (s.pc p)) : b'.work < b.work ∨
      (b' = b ∧ Helpful b (q.answered a) ∧ (q.answered a).distance < (s.pc p).distance) := by
  rcases h with ⟨g,ht,hg⟩ | ⟨hr,_⟩
  · exact Or.inl (hs.reported hc hid (by rw [hq]; rfl) ht hg)
  · rw [hq]
    cases hs with
    | registered _ _ _ =>
      refine Or.inr ⟨rfl,Or.inr ⟨hr,id,fun _ he => by cases he⟩,?_⟩
      exact distance_lt.mpr (Or.inl (by decide))
    | unknown hn =>
      obtain ⟨w,hw,hid'⟩ := hc.known p (by rw [hq]; trivial)
      exact absurd hid' (hn w hw)
    | granted _ _ hr _ _ _ => exact Or.inl (Board.work_grant b _ hr)
    | idle hn => exact absurd hr hn
    | rejected _ _ =>
      refine Or.inr ⟨rfl,Or.inr ⟨hr,id,fun _ he => by cases he⟩,?_⟩
      exact distance_lt.mpr (Or.inl (by decide))
    | accepted hk _ _ => exact Or.inl (Board.work_finish hk.pending)

theorem Reading.readable (h : Reading env fs (.reduceRead r (name :: names) acc)) :
    fs.read name ≠ none := by
  obtain ⟨done,hg,_⟩ := h
  have hm : name ∈ glob fs (globPattern r.partition) := by
    rw [hg]
    exact List.mem_append_right _ List.mem_cons_self
  have hn := List.mem_filter.mp ((List.perm_insertionSort _ _).mem_iff.mp hm)
  exact Option.isSome_iff_ne_none.mp ((Store.mem_names fs name).mp hn.1)

/-- A reducer's list of files is the one that the directory holds, in every run. -/
theorem Stepped.reading (hs : Stepped env b s a b' t) (h : Sound env b s)
    (hr : ∀ p, Reading env s.fs (s.pc p)) (p : Nat) : Reading env t.fs (t.pc p) := by
  cases hs with
  | advance hn => exact h.reading hn hr p
  | serve hq _ hs =>
    rw [afterServe_pc]
    split
    · cases hs <;> trivial
    · exact hr p
  | serveDead _ _ _ =>
    rw [afterServe_pc]
    split
    · trivial
    · exact hr p
  | close _ =>
    rw [close_pc]
    exact hr p
  | crash _ =>
    rw [setProc_pc]
    split
    · trivial
    · exact hr p

/-- With readable input files and some partition no process dies of itself. -/
theorem Sound.survives (h : Sound env b s) (hn : 1 ≤ nReduce)
    (hin : ∀ f ∈ files, (env.input f).isSome = true) (hr : Reading env s.fs (s.pc p))
    (he : next env p s.fs (s.pc p) = some e) (q : Option Request) : e.pc ≠ .dead q := by
  have ha := advances he
  have hf := h.custody.fair p
  generalize s.pc p = pc at ha hf hr he
  cases ha with
  | mapFatal =>
    obtain ⟨⟨k,hk⟩,hp⟩ := hf
    rcases hk.stage with ⟨_,f,hfile,rfl⟩ | ⟨hr,_⟩
    · obtain ⟨content,hc⟩ := Option.isSome_iff_exists.mp (hin f (List.mem_of_getElem? hfile))
      have hc : env.input (mapGrant nReduce k f).filePath = some content := hc
      have hz : ¬ ((mapGrant nReduce k f).nReduce = 0 ∧
          env.mapf (mapGrant nReduce k f).filePath content ≠ []) :=
        fun hz => absurd hz.1 (by simp only [mapGrant]; omega)
      rw [next,hc] at he
      simp only [hz] at he
      cases he
    · rw [hp] at hr
      cases hr
  | readFatal hs => exact absurd hs hr.readable
  | _ => exact fun hx => by cases hx

theorem Stepped.other_pc (hs : Stepped env b s a b' t) (ha : ¬ a.drives p) (hx : a ≠ .crash p) :
    t.pc p = s.pc p := by
  cases hs with
  | advance _ =>
    rw [advanced_pc,if_neg]
    intro he
    exact ha (Or.inl (by rw [he]))
  | serve _ _ _ | serveDead _ _ _ =>
    rw [afterServe_pc,if_neg]
    intro he
    exact ha (Or.inr (by rw [he]))
  | close _ => exact close_pc s _ _ p
  | crash _ =>
    rw [setProc_pc,if_neg]
    intro he
    exact hx (by rw [he])

/-- A step takes work off the board, or the helpful process is as helpful as before and, if
the step was its own, closer. -/
theorem Stepped.helps (hs : Stepped env b s a b' t) (hc : Custody env b s)
    (hid : (env.worker p).id ≠ "") (hx : a ≠ .crash p) (hd : ∀ q, s.pc p ≠ .dead q)
    (hd' : ∀ q, t.pc p ≠ .dead q) (h : Helpful b (s.pc p)) :
    b'.work < b.work ∨ (b' = b ∧ Helpful b (t.pc p) ∧
      ((t.pc p).distance < (s.pc p).distance ∨ (t.pc p = s.pc p ∧ ¬ a.drives p))) := by
  by_cases ha : a.drives p
  · rcases ha with rfl | rfl
    · cases hs with
      | advance hn =>
        rw [advanced_pc,if_pos rfl] at hd' ⊢
        have ha := advances hn
        exact Or.inr ⟨rfl,ha.helpful (hc.fair p) h hd',Or.inl ha.closer⟩
    · cases hs with
      | serve hq _ hs =>
        rw [afterServe_pc,if_pos rfl]
        refine (hs.helpful hc hid hq h).imp_right (fun hx => ?_)
        exact ⟨hx.1,hx.2.1,Or.inl hx.2.2⟩
      | serveDead hq _ _ => exact absurd hq (hd _)
  · have hpc := hs.other_pc ha hx
    refine hs.moves.work.symm.imp_right (fun hb => ⟨hb,?_,Or.inr ⟨hpc,ha⟩⟩)
    rw [hpc]
    exact h

theorem Helpful.running {pc : Pc} (h : Helpful b pc) (ho : pc ≠ .offline)
    (hd : ∀ q, pc ≠ .dead q) : pc.running = true := by
  cases pc with
  | offline => exact absurd rfl ho
  | dead q => exact absurd rfl (hd q)
  | stopped =>
    rcases h with ⟨g,ht,_⟩ | ⟨_,hl,_⟩
    · cases ht
    · exact absurd trivial hl
  | _ => rfl

end Proofs

end MapReduce
