import Mathlib
import MapReduce.GroupingLoops
import MapReduce.Proofs.Records

namespace MapReduce.Proofs
open Grouping Loops

variable {l run : List KeyValue} {first : KeyValue} {i j : Nat}

/-- `j` has got past `i` over pairs of the key of `first`, which is the pair at `i`. -/
structure Spans (l : List KeyValue) (i j : Nat) (first : KeyValue) (run : List KeyValue) :
    Prop where
  split : l.drop i = first :: (run ++ l.drop j)
  same : ∀ kv ∈ run, kv.key = first.key
  length : j = i + 1 + run.length

theorem Spans.get (h : Spans l i j first run) : l[i]? = some first := by
  rw [← List.head?_drop,h.split,List.head?_cons]

theorem Spans.le (h : Spans l i j first run) : j ≤ l.length := by
  have hl := congrArg List.length h.split
  have hj := h.length
  simp only [List.length_drop,List.length_cons,List.length_append] at hl
  omega

theorem spans_start (hi : i < l.length) : Spans l i (i + 1) l[i] [] :=
  ⟨List.drop_eq_getElem_cons hi,by simp,rfl⟩

theorem Spans.next (h : Spans l i j first run) (hg : sameKey l i j = true) :
    ∃ kv, l[j]? = some kv ∧ Spans l i (j + 1) first (run ++ [kv]) := by
  simp only [sameKey,Bool.and_eq_true,decide_eq_true_eq,h.get,beq_iff_eq] at hg
  obtain ⟨hj,hk⟩ := hg
  rw [List.getElem?_eq_getElem hj,Option.map_some,Option.map_some,Option.some.injEq] at hk
  refine ⟨l[j],List.getElem?_eq_getElem hj,?_,?_,?_⟩
  · rw [h.split,List.drop_eq_getElem_cons hj,List.append_assoc,List.singleton_append]
  · intro kv hkv
    rcases List.mem_append.mp hkv with hkv | hkv
    · exact h.same kv hkv
    · rw [List.mem_singleton.mp hkv,hk]
  · have hj := h.length
    rw [List.length_append,List.length_singleton]
    omega

/-- Where `j` stops, the pairs from `i` to `j` are the first group of what is left. -/
theorem Spans.group (h : Spans l i j first run) (hg : sameKey l i j = false) :
    groups KeyValue.key (l.drop i) =
      (first.key,first :: run) :: groups KeyValue.key (l.drop j) := by
  have hrest : ∀ kv ∈ (l.drop j).head?, kv.key ≠ first.key := by
    intro kv hkv
    rw [List.head?_drop,Option.mem_def] at hkv
    have hj := (List.getElem?_eq_some_iff.mp hkv).1
    simpa only [sameKey,hkv,h.get,hj,decide_true,Bool.true_and,Option.map_some,beq_eq_false_iff_ne,
      ne_eq,Option.some.injEq] using hg
  have htake : (l.drop j).takeWhile (fun kv => kv.key = first.key) = [] := by
    cases hd : l.drop j with
    | nil => rfl
    | cons kv rest => simpa using hrest kv (by simp [hd])
  have hdrop : (l.drop j).dropWhile (fun kv => kv.key = first.key) = l.drop j := by
    have := List.takeWhile_append_dropWhile (p := fun kv : KeyValue => decide (kv.key = first.key))
      (l := l.drop j)
    rwa [htake,List.nil_append] at this
  have hall : ∀ kv ∈ run, decide (kv.key = first.key) = true := by
    intro kv hkv
    simpa using h.same kv hkv
  rw [h.split,groups_cons,List.takeWhile_append_of_pos hall,List.dropWhile_append_of_pos hall,
    htake,hdrop,List.append_nil]

/-- The calls of `reducef` that a list of pairs asks for. -/
def callsOf (l : List KeyValue) : List (Bytes × List Bytes) :=
  (groups KeyValue.key l).map (fun g => (g.1,g.2.map KeyValue.value))

def callRecord (reducef : Reducef) (call : Bytes × List Bytes) : KeyValue :=
  ⟨call.1,reducef call.1 call.2⟩

/-- What a grouping loop ends with. -/
def grouped (reducef : Reducef) (l : List KeyValue) : Emitted :=
  ⟨l.length,callsOf l,(callsOf l).map (callRecord reducef)⟩

variable {reducef : Reducef} {fuel : Nat} {round : Emitted → Option Emitted}

/-- A round takes the first group off what is left. -/
def TakesGroup (reducef : Reducef) (l : List KeyValue) (round : Emitted → Option Emitted) : Prop :=
  ∀ s : Emitted, s.i < l.length → ∃ j first run, Spans l s.i j first run ∧
    sameKey l s.i j = false ∧
    round s = some (s.emit reducef first.key (first.value :: run.map KeyValue.value) j)

/-- The rounds of either loop add up to the groups of the whole list. -/
theorem rounds_grouped (hr : TakesGroup reducef l round) (hf : l.length ≤ fuel) :
    loop (fun s => decide (s.i < l.length)) round fuel {} = some (grouped reducef l) := by
  -- what was called, with what the rest asks for, is what the whole list asks for
  let inv (s : Emitted) : Prop := s.i ≤ l.length ∧ s.calls ++ callsOf (l.drop s.i) = callsOf l ∧
    s.records = s.calls.map (callRecord reducef)
  have hround : ∀ s, inv s → decide (s.i < l.length) = true →
      ∃ t, round s = some t ∧ inv t ∧ l.length - t.i < l.length - s.i := by
    intro s hs hg
    obtain ⟨_,hcalls,hrecords⟩ := hs
    obtain ⟨j,first,run,hspans,hend,hround⟩ := hr s (of_decide_eq_true hg)
    have hle := hspans.le
    have hlen := hspans.length
    refine ⟨_,hround,⟨hle,?_,?_⟩,?_⟩
    · rw [← hcalls,callsOf,callsOf,hspans.group hend]
      simp [Emitted.emit]
    · simp [Emitted.emit,hrecords,callRecord]
    · simp only [Emitted.emit]
      omega
  obtain ⟨s,hs,⟨hle,hcalls,hrecords⟩,hg⟩ := total inv (fun s => l.length - s.i) hround
    (s := {}) ⟨Nat.zero_le _,by simp,rfl⟩ (by simpa using hf)
  have hi : s.i = l.length := by
    have := of_decide_eq_false hg
    omega
  rw [hi,List.drop_length,callsOf,groups,List.map_nil,List.append_nil] at hcalls
  rw [hs,grouped,← hcalls,← hi,← hrecords]

theorem reducerRound_takes (reducef : Reducef) (hf : l.length ≤ fuel) :
    TakesGroup reducef l (reducerRound l reducef fuel) := by
  intro s hi
  let inv (v : Nat × List Bytes) : Prop := ∃ run, Spans l s.i v.1 l[s.i] run ∧
    v.2 = l[s.i].value :: run.map KeyValue.value
  have hround : ∀ v, inv v → sameKey l s.i v.1 = true →
      ∃ u, appendValue l v = some u ∧ inv u ∧ l.length - u.1 < l.length - v.1 := by
    intro v hv hg
    obtain ⟨run,hspans,hvalues⟩ := hv
    obtain ⟨kv,hkv,hnext⟩ := hspans.next hg
    have hj := (List.getElem?_eq_some_iff.mp hkv).1
    refine ⟨(v.1 + 1,v.2 ++ [kv.value]),by simp [appendValue,hkv],⟨run ++ [kv],hnext,?_⟩,?_⟩
    · simp [hvalues]
    · simp only
      omega
  obtain ⟨v,hv,⟨run,hspans,hvalues⟩,hg⟩ := total inv (fun v => l.length - v.1) hround
    (s := (s.i + 1,[l[s.i].value])) ⟨[],spans_start hi,rfl⟩ (n := fuel) (by simp only; omega)
  refine ⟨v.1,l[s.i],run,hspans,hg,?_⟩
  simp [reducerRound,List.getElem?_eq_getElem hi,hv,hvalues]

/-- The scan for the end of the run. -/
theorem sameKey_loop (hi : i < l.length) (hf : l.length ≤ fuel) :
    ∃ j run, loop (sameKey l i) (fun j => some (j + 1)) fuel (i + 1) = some j ∧
      Spans l i j l[i] run ∧ sameKey l i j = false := by
  have hround : ∀ j, (∃ run, Spans l i j l[i] run) → sameKey l i j = true →
      ∃ j', some (j + 1) = some j' ∧ (∃ run, Spans l i j' l[i] run) ∧
        l.length - j' < l.length - j := by
    intro j hs hg
    obtain ⟨run,hspans⟩ := hs
    obtain ⟨kv,hkv,hnext⟩ := hspans.next hg
    have hj := (List.getElem?_eq_some_iff.mp hkv).1
    exact ⟨j + 1,rfl,⟨run ++ [kv],hnext⟩,by omega⟩
  obtain ⟨j,hj,⟨run,hspans⟩,hg⟩ := total (fun j => ∃ run, Spans l i j l[i] run)
    (fun j => l.length - j) hround ⟨[],spans_start hi⟩ (n := fuel) (by omega)
  exact ⟨j,run,hj,hspans,hg⟩

/-- The second pass, over the pairs from `i` up to `j`. -/
theorem values_loop (hij : i ≤ j) (hj : j ≤ l.length) (hf : l.length ≤ fuel) :
    loop (fun v => decide (v.1 < j)) (appendValue l) fuel (i,[]) =
      some (j,((l.drop i).take (j - i)).map KeyValue.value) := by
  let inv (v : Nat × List Bytes) : Prop := i ≤ v.1 ∧ v.1 ≤ j ∧
    v.2 = ((l.drop i).take (v.1 - i)).map KeyValue.value
  have hround : ∀ v, inv v → decide (v.1 < j) = true →
      ∃ u, appendValue l v = some u ∧ inv u ∧ j - u.1 < j - v.1 := by
    intro v hv hg
    obtain ⟨hlow,_,hvalues⟩ := hv
    have hk : v.1 < j := of_decide_eq_true hg
    have hget : l[v.1]? = some l[v.1] := List.getElem?_eq_getElem (by omega)
    have hstep : (l.drop i).take (v.1 + 1 - i) = (l.drop i).take (v.1 - i) ++ [l[v.1]] := by
      rw [Nat.sub_add_comm hlow,List.take_add_one,List.getElem?_drop,Nat.add_sub_cancel' hlow,hget]
      rfl
    refine ⟨(v.1 + 1,v.2 ++ [l[v.1].value]),by simp [appendValue,hget],⟨by simp; omega,hk,?_⟩,?_⟩
    · simp [hvalues,hstep]
    · simp only
      omega
  obtain ⟨v,hv,⟨_,hle,hvalues⟩,hg⟩ := total inv (fun v => j - v.1) hround (s := (i,[]))
    ⟨Nat.le_refl _,hij,by simp⟩ (n := fuel) (by simp only; omega)
  have hk : v.1 = j := by
    have := of_decide_eq_false hg
    omega
  rw [hv,← hk,← hvalues]

theorem sequentialRound_takes (reducef : Reducef) (hf : l.length ≤ fuel) :
    TakesGroup reducef l (sequentialRound l reducef fuel) := by
  intro s hi
  obtain ⟨j,run,hscan,hspans,hg⟩ := sameKey_loop hi hf
  have hlen := hspans.length
  have hvalues : (l.drop s.i).take (j - s.i) = l[s.i] :: run := by
    have hj : j - s.i = run.length + 1 := by omega
    rw [hspans.split,hj,List.take_succ_cons,List.take_left']
    rfl
  have hpass := values_loop (i := s.i) (by omega) hspans.le hf
  refine ⟨j,l[s.i],run,hspans,hg,?_⟩
  simp [sequentialRound,hscan,hpass,hvalues,List.getElem?_eq_getElem hi]

theorem grouped_records (reducef : Reducef) (l : List KeyValue) :
    (grouped reducef l).records = reduceRecords reducef l := by
  rw [reduceRecords_groups,grouped,callsOf,List.map_map]
  rfl

theorem callsOf_concat (l : List KeyValue) :
    (callsOf l).flatMap (fun call => call.2.map (KeyValue.mk call.1)) = l := by
  conv_rhs => rw [← groups_flatten KeyValue.key l]
  rw [callsOf,List.flatMap_map]
  apply List.flatMap_congr
  intro g hg
  have hmap : g.2.map (KeyValue.mk g.1 ∘ KeyValue.value) = g.2.map id := by
    apply List.map_congr_left
    intro kv hkv
    rw [Function.comp_apply,← groups_run KeyValue.key l g hg kv hkv]
    rfl
  rw [List.map_map,hmap,List.map_id]

theorem callsOf_sorted (hs : Sorted l) (reducef : Reducef) :
    callsOf l = (reduceRecords reducef l).map (fun r => (r.key,valuesOf l r.key)) := by
  rw [callsOf,reduceRecords_groups,List.map_map]
  apply List.map_congr_left
  intro g hg
  rw [groups_filter KeyValue.key hs hg]
  rfl

/-- The two grouping loops end on every list with the same calls and the same records. On a
list in key order there is one call for each key, with all its values. -/
theorem grouping_loops_agree (reducef : Reducef) (l : List KeyValue) :
    ∃ out : Emitted,
      (∀ fuel, l.length ≤ fuel → reducerGrouping l reducef fuel = some out ∧
        sequentialGrouping l reducef fuel = some out) ∧
      out.records = reduceRecords reducef l ∧ out.records = sequentialRecords reducef l ∧
      out.records = out.calls.map (fun call => ⟨call.1,reducef call.1 call.2⟩) ∧
      out.calls.flatMap (fun call => call.2.map (KeyValue.mk call.1)) = l ∧
      (Sorted l →
        out.records.Pairwise (fun a b => a.key < b.key) ∧
        (∀ key, key ∈ out.records.map KeyValue.key ↔ key ∈ l.map KeyValue.key) ∧
        out.calls = out.records.map (fun r => (r.key,valuesOf l r.key))) := by
  have hrecords := grouped_records reducef l
  refine ⟨grouped reducef l,?_,hrecords,?_,rfl,callsOf_concat l,?_⟩
  · intro fuel hf
    exact ⟨rounds_grouped (reducerRound_takes reducef hf) hf,
      rounds_grouped (sequentialRound_takes reducef hf) hf⟩
  · rw [hrecords,sequentialRecords_eq]
  · intro hs
    rw [hrecords]
    refine ⟨records_increasing hs,?_,callsOf_sorted hs reducef⟩
    intro key
    rw [reduceRecords_groups,List.map_map]
    exact mem_groups_key KeyValue.key l key

def twoKeys : List KeyValue := [⟨[0x61],[0x31]⟩,⟨[0x61],[0x32]⟩,⟨[0x62],[0x33]⟩]

theorem grouping_loops_agree_two_keys :
    Sorted twoKeys ∧ ∃ out, reducerGrouping twoKeys (fun _ values => values.flatten) 3 = some out ∧
      out.calls = [([0x61],[[0x31],[0x32]]),([0x62],[[0x33]])] := by
  have hs : Sorted twoKeys := by
    unfold Sorted
    decide
  obtain ⟨out,hloops,hrecords,_,_,_,hsorted⟩ :=
    grouping_loops_agree (fun _ values => values.flatten) twoKeys
  refine ⟨hs,out,(hloops 3 (Nat.le_refl _)).1,?_⟩
  rw [(hsorted hs).2.2,hrecords]
  decide

end MapReduce.Proofs
