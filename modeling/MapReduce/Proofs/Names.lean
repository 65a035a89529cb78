import Mathlib
import MapReduce.Coordinator
import MapReduce.Worker
import MapReduce.Library.Format

namespace MapReduce.Proofs
open Files Format

/-- The names are what the formats of the source give. -/
theorem names_formatted (taskId : String) (i p : Nat) (partition : Int) :
    taskName i = sprintf [.text "task-",.verb .decimal] [.int i] ∧
    intermediateName taskId p =
      sprintf [.text "mr-data/intermediate/mr-",.verb .plain,.text "-",.verb .decimal]
        [.string taskId,.int p] ∧
    globPattern partition =
      sprintf [.text "mr-data/intermediate/mr-task-*-",.verb .decimal] [.int partition] ∧
    outputName partition =
      sprintf [.text "mr-data/output/mr-out-",.verb .decimal] [.int partition] := by
  refine ⟨?_,?_,?_,?_⟩
  · unfold taskName
    rw [sprintf_text,sprintf_verb,sprintf_nil,String.append_empty,render_int]
    rfl
  · unfold intermediateName
    rw [sprintf_text,sprintf_verb,sprintf_text,sprintf_verb,sprintf_nil,String.append_empty,
      String.append_assoc,String.append_assoc,render_string,render_int]
    rfl
  · unfold globPattern
    rw [sprintf_text,sprintf_verb,sprintf_nil,String.append_empty,render_int]
  · unfold outputName
    rw [sprintf_text,sprintf_verb,sprintf_nil,String.append_empty,render_int]

/-- What every file that a map task writes starts with. -/
def taskPrefix : String := "mr-data/intermediate/mr-task-"

theorem digit_free {c : Char} (hc : c.isDigit = false) (n : Nat) : c ∉ (toString n).toList := by
  intro h
  have hd := Nat.isDigit_of_mem_toDigits (by decide) (by decide) (Nat.toList_repr ▸ h)
  rw [hc] at hd
  contradiction

theorem toString_toList_inj {m n : Nat} (h : (toString m).toList = (toString n).toList) : m = n :=
  Nat.repr_injective (String.toList_injective h)

theorem taskPrefix_eq : taskPrefix = "mr-data/intermediate/mr-" ++ "task-" := by decide

theorem dash_toList : "-".toList = ['-'] := by decide

theorem star_toList : "*-".toList = ['*','-'] := by decide

theorem append_regroup (a b c d e : List Char) :
    a ++ (b ++ c) ++ d ++ e = ((a ++ b) ++ c) ++ (d ++ e) := by simp

theorem intermediate_toList (m r : Nat) : (intermediateName (taskName m) r).toList =
    (taskPrefix.toList ++ (toString m).toList) ++ '-' :: (toString r).toList := by
  unfold intermediateName taskName
  rw [taskPrefix_eq,String.toList_append,String.toList_append,String.toList_append,
    String.toList_append,String.toList_append,dash_toList]
  exact append_regroup _ _ _ _ _

theorem pattern_eq : "mr-data/intermediate/mr-task-*-" = taskPrefix ++ "*-" := by decide

theorem pattern_toList (r : Nat) :
    (globPattern r).toList = taskPrefix.toList ++ '*' :: '-' :: (toString r).toList := by
  have hs : toString (r : Int) = toString r := rfl
  unfold globPattern
  rw [pattern_eq,String.toList_append,String.toList_append,hs,star_toList]
  exact List.append_assoc _ _ _

theorem glob_accepts (r : Nat) (name : String) :
    Wildcard.accepts '*' '/' (globPattern r).toList name.toList = true ↔
      ∃ u, name.toList = (taskPrefix.toList ++ u) ++ '-' :: (toString r).toList ∧ '/' ∉ u := by
  rw [pattern_toList]
  refine Wildcard.accepts_one_star '*' '/' _ _ _ (by decide) ?_
  have hd := digit_free (c := '*') (by decide) r
  intro h
  rcases List.mem_cons.mp h with h | h
  · exact absurd h (by decide)
  · exact hd h

/-- The pattern of partition `r'` matches what a map task writes for `r'` and nothing
else that one writes. -/
theorem intermediate_accepts (m r r' : Nat) :
    Wildcard.accepts '*' '/' (globPattern r').toList (intermediateName (taskName m) r).toList = true ↔
      r = r' := by
  have hd : ∀ n : Nat, '-' ∉ (toString n).toList := digit_free (by decide)
  rw [glob_accepts,intermediate_toList]
  constructor
  · intro hx
    obtain ⟨u,hu,_⟩ := hx
    exact toString_toList_inj (Wildcard.split_last (hd r) (hd r') hu).2
  · intro he
    subst he
    exact ⟨(toString m).toList,rfl,digit_free (by decide) m⟩

theorem intermediate_inj {m r m' r' : Nat} :
    intermediateName (taskName m) r = intermediateName (taskName m') r' ↔ m = m' ∧ r = r' := by
  have hd : ∀ n : Nat, '-' ∉ (toString n).toList := digit_free (by decide)
  constructor
  · intro h
    have hl := congrArg String.toList h
    rw [intermediate_toList,intermediate_toList] at hl
    obtain ⟨hm,hr⟩ := Wildcard.split_last (hd r) (hd r') hl
    exact ⟨toString_toList_inj (List.append_cancel_left hm),toString_toList_inj hr⟩
  · intro hx
    obtain ⟨rfl,rfl⟩ := hx
    rfl

theorem output_inj {p p' : Int} (h : outputName p = outputName p') : p = p' :=
  Int.repr_injective ((String.append_right_inj _).mp h)

theorem output_toList (p : Int) :
    (outputName p).toList = "mr-data/output/mr-out-".toList ++ (toString p).toList :=
  String.toList_append

/-- No output stands in the directory of the intermediate files. -/
theorem output_not_intermediate (p : Int) :
    ¬ "mr-data/intermediate/".toList <+: (outputName p).toList := by
  intro hx
  obtain ⟨t,ht⟩ := hx
  have hc := congrArg (List.take 9) (ht.trans (output_toList p))
  rw [List.take_append_of_le_length (by decide),List.take_append_of_le_length (by decide)] at hc
  exact absurd hc (by decide)

theorem output_not_task (p : Int) : ¬ taskPrefix.toList <+: (outputName p).toList := by
  intro h
  have hp : "mr-data/intermediate/".toList <+: taskPrefix.toList := by decide
  exact output_not_intermediate p (hp.trans h)

theorem intermediate_task (m r : Nat) :
    taskPrefix.toList <+: (intermediateName (taskName m) r).toList := by
  rw [intermediate_toList,List.append_assoc]
  exact List.prefix_append _ _

theorem output_ne_intermediate (p : Int) (m r : Nat) :
    outputName p ≠ intermediateName (taskName m) r := by
  intro h
  exact output_not_task p (h ▸ intermediate_task m r)

theorem accepts_task {r : Int} {name : String}
    (h : Wildcard.accepts '*' '/' (globPattern r).toList name.toList = true) :
    taskPrefix.toList <+: name.toList := by
  unfold globPattern at h
  rw [pattern_eq,String.toList_append,String.toList_append,List.append_assoc] at h
  obtain ⟨v,hv,_⟩ := (Wildcard.accepts_literal '*' '/' _ _ _ (by decide)).mp h
  exact ⟨v,hv.symm⟩

/-- The files of map tasks that a directory holds are those of tasks `0 .. n - 1` for
partitions `0 .. k - 1`. -/
def Holds (fs : FileSystem) (n k : Nat) : Prop :=
  ∀ name, taskPrefix.toList <+: name.toList →
    (name ∈ fs.names ↔ ∃ m < n, ∃ r < k, name = intermediateName (taskName m) r)

/-- The reducer of `r` reads exactly what the mappers wrote for `r`, each file once. -/
theorem glob_holds (h : Holds fs n k) (hr : r < k) :
    (glob fs (globPattern r)).Perm
      ((List.range n).map (fun m => intermediateName (taskName m) r)) := by
  refine (List.perm_insertionSort _ _).trans ?_
  have hnd : ((List.range n).map (fun m => intermediateName (taskName m) r)).Nodup :=
    List.nodup_range.map (fun m m' he => (intermediate_inj.mp he).1)
  refine (List.perm_ext_iff_of_nodup (fs.nodup.filter _) hnd).mpr ?_
  intro name
  rw [List.mem_filter]
  constructor
  · intro hx
    obtain ⟨hn,ha⟩ := hx
    obtain ⟨m,hm,r',_,rfl⟩ := (h name (accepts_task ha)).mp hn
    have he := (intermediate_accepts m r' r).mp ha
    exact List.mem_map.mpr ⟨m,List.mem_range.mpr hm,by rw [he]⟩
  · intro hmem
    obtain ⟨m,hm,rfl⟩ := List.mem_map.mp hmem
    have hm := List.mem_range.mp hm
    exact ⟨(h _ (intermediate_task m r)).mpr ⟨m,hm,r,hr,rfl⟩,(intermediate_accepts m r r).mpr rfl⟩

end MapReduce.Proofs
