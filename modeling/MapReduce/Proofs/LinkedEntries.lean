import Mathlib
import MapReduce.Porcupine.Checker
import MapReduce.Library.Linearization

namespace MapReduce.Porcupine
open Linearization

section
variable {ι ο : Type}

def Entry.mark (e : Entry ι ο) : Mark Int :=
  match e.kind with
  | .callEntry => .call e.id
  | .returnEntry => .ret e.id

/-- The entries with the addresses of their nodes: the last one was linked first. -/
def addressed : List (Entry ι ο) → List (Nat × Entry ι ο)
  | [] => []
  | e :: entries => (entries.length,e) :: addressed entries

/-- What is left in the list when the operations `done` are lifted out of it. -/
def remaining (entries : List (Entry ι ο)) (done : List Int) : List (Nat × Entry ι ο) :=
  (addressed entries).filter (fun x => x.2.id ∉ done)

/-- A history as the front ends produce it: operations from 0 on, each with its call and
after it its return, and values of the right kind. -/
structure Complete (entries : List (Entry ι ο)) : Prop where
  formed : WellFormed (entries.map Entry.mark)
  numbered : ∀ e ∈ entries, ∃ k : Nat, k < entries.length / 2 ∧ e.id = k
  input : ∀ e ∈ entries, e.kind = .callEntry → ∃ i, e.value = .input i
  output : ∀ e ∈ entries, e.kind = .returnEntry → ∃ o, e.value = .output o

end

end MapReduce.Porcupine

namespace MapReduce.Proofs
open MapReduce.Porcupine Linearization

variable {ι ο : Type} {entries us vs : List (Entry ι ο)} {e : Entry ι ο}

theorem mark_op (e : Entry ι ο) : e.mark.op = e.id := by
  rw [Entry.mark]
  cases e.kind <;> rfl

theorem mark_call (h : e.kind = .callEntry) : e.mark = .call e.id := by
  rw [Entry.mark,h]

theorem mark_return (h : e.kind = .returnEntry) : e.mark = .ret e.id := by
  rw [Entry.mark,h]

theorem mark_of_id (h : e.id = i) : e.mark = .call i ∨ e.mark = .ret i := by
  rw [Entry.mark,h]
  cases e.kind
  · exact .inl rfl
  · exact .inr rfl

theorem mark_ret (h : e.mark = .ret i) : e.kind = .returnEntry ∧ e.id = i := by
  rw [Entry.mark] at h
  cases hk : e.kind with
  | callEntry => simp [hk] at h
  | returnEntry => exact ⟨rfl,by simpa [hk] using h⟩

theorem addressed_snd (entries : List (Entry ι ο)) : (addressed entries).map Prod.snd = entries := by
  induction entries with
  | nil => rfl
  | cons e entries ih => rw [addressed,List.map_cons,ih]

theorem mem_addressed : (a,e) ∈ addressed entries ↔
    ∃ us vs, entries = us ++ e :: vs ∧ vs.length = a := by
  induction entries with
  | nil => simp [addressed]
  | cons d entries ih =>
    rw [addressed,List.mem_cons,ih]
    constructor
    · rintro (he | ⟨us,vs,rfl,ha⟩)
      · cases he
        exact ⟨[],entries,rfl,rfl⟩
      · exact ⟨d :: us,vs,rfl,ha⟩
    · rintro ⟨us,vs,hs,ha⟩
      cases us with
      | nil =>
        cases hs
        exact .inl (by rw [ha])
      | cons u us =>
        cases hs
        exact .inr ⟨us,vs,rfl,ha⟩

theorem addressed_lt (h : (a,e) ∈ addressed entries) : a < entries.length := by
  obtain ⟨us,vs,rfl,rfl⟩ := mem_addressed.mp h
  simp
  omega

theorem addressed_sorted (entries : List (Entry ι ο)) :
    (addressed entries).Pairwise (fun x y => y.1 < x.1) := by
  induction entries with
  | nil => exact .nil
  | cons e entries ih => exact List.pairwise_cons.mpr ⟨fun x hx => addressed_lt hx,ih⟩

theorem addressed_nodup (entries : List (Entry ι ο)) :
    ((addressed entries).map Prod.fst).Nodup :=
  List.pairwise_map.mpr ((addressed_sorted entries).imp (fun h => (Nat.ne_of_lt h).symm))

theorem remaining_marks (entries : List (Entry ι ο)) (done : List Int) :
    (remaining entries done).map (fun x => x.2.mark) = without (entries.map Entry.mark) done := by
  have h : (remaining entries done).map Prod.snd = entries.filter (fun e => e.id ∉ done) := by
    conv_rhs => rw [← addressed_snd entries]
    rw [List.filter_map]
    rfl
  have hmap : (remaining entries done).map (fun x => x.2.mark) =
      ((remaining entries done).map Prod.snd).map Entry.mark := by
    rw [List.map_map]
    rfl
  rw [hmap,h,without,List.filter_map]
  simp only [Function.comp_def,mark_op]

/-! The linked list that is made of the entries. -/

section
variable (e : Entry ι ο) (s : Linking ι ο)

theorem add_nodes : (s.add e).nodes = s.nodes ++ [⟨some e.value,
    if e.kind = .returnEntry then none else s.matching e.id,e.id⟩] := by
  rw [Linking.add]
  cases e.kind <;> rfl

theorem add_links : (s.add e).links = insertBefore s.links s.nodes.length s.root := by
  rw [Linking.add]
  cases e.kind <;> rfl

theorem add_root : (s.add e).root = some s.nodes.length := by
  rw [Linking.add]
  cases e.kind <;> rfl

theorem add_matching : (s.add e).matching =
    if e.kind = .returnEntry then Function.update s.matching e.id (some s.nodes.length)
    else s.matching := by
  rw [Linking.add]
  cases e.kind <;> rfl

end

theorem linked_cons (e : Entry ι ο) (entries : List (Entry ι ο)) :
    makeLinkedEntries (e :: entries) = (makeLinkedEntries entries).add e := rfl

theorem linked_size (entries : List (Entry ι ο)) :
    (makeLinkedEntries entries).nodes.length = entries.length := by
  induction entries with
  | nil => rfl
  | cons e entries ih =>
    rw [linked_cons,add_nodes]
    simp [ih]

theorem linked_root (entries : List (Entry ι ο)) :
    (makeLinkedEntries entries).root = ((addressed entries).map Prod.fst).head? := by
  cases entries with
  | nil => rfl
  | cons e entries =>
    rw [linked_cons,add_root,linked_size]
    rfl

/-- The node of an entry. A call finds the return among the entries after it. -/
theorem linked_node (us vs : List (Entry ι ο)) (e : Entry ι ο) :
    (makeLinkedEntries (us ++ e :: vs)).nodes[vs.length]? = some ⟨some e.value,
      if e.kind = .returnEntry then none else (makeLinkedEntries vs).matching e.id,e.id⟩ := by
  induction us with
  | nil =>
    rw [List.nil_append,linked_cons,add_nodes,← linked_size vs]
    exact List.getElem?_concat_length
  | cons u us ih =>
    have hlt : vs.length < (makeLinkedEntries (us ++ e :: vs)).nodes.length := by
      rw [linked_size]
      simp
      omega
    rw [List.cons_append,linked_cons,add_nodes,List.getElem?_append_left hlt,ih]

theorem linked_matching (h : (makeLinkedEntries vs).matching i = some b) :
    ∃ us e ws, vs = us ++ e :: ws ∧ ws.length = b ∧ e.mark = .ret i := by
  induction vs with
  | nil => cases h
  | cons d vs ih =>
    rw [linked_cons,add_matching] at h
    have hold : (makeLinkedEntries vs).matching i = some b →
        ∃ us e ws, d :: vs = us ++ e :: ws ∧ ws.length = b ∧ e.mark = .ret i := by
      intro h
      obtain ⟨us,e,ws,rfl,hb,he⟩ := ih h
      exact ⟨d :: us,e,ws,rfl,hb,he⟩
    split at h
    · rename_i hk
      by_cases hi : i = d.id
      · subst hi
        rw [Function.update_self,linked_size] at h
        exact ⟨[],d,vs,rfl,Option.some.inj h,mark_return hk⟩
      · rw [Function.update_of_ne hi] at h
        exact hold h
    · exact hold h

theorem linked_found (h : .ret i ∈ vs.map Entry.mark) :
    ∃ b, (makeLinkedEntries vs).matching i = some b := by
  induction vs with
  | nil => cases h
  | cons d vs ih =>
    rw [linked_cons,add_matching]
    by_cases hi : d.mark = .ret i
    · obtain ⟨hk,rfl⟩ := mark_ret hi
      rw [if_pos hk,Function.update_self]
      exact ⟨_,rfl⟩
    · obtain ⟨b,hb⟩ := ih ((List.mem_cons.mp h).resolve_left (Ne.symm hi))
      split
      · by_cases hid : i = d.id
        · rw [hid,Function.update_self]
          exact ⟨_,rfl⟩
        · rw [Function.update_of_ne hid]
          exact ⟨b,hb⟩
      · exact ⟨b,hb⟩

/-- A new node goes before a list whose first node has nothing before it. -/
theorem insertBefore_threads {l : Links Nat} {xs : List Nat} {n : Nat} (h : l.Threads xs)
    (hn : n ∉ xs) (hnext : l.next n = none) (hprev : l.prev n = none) :
    (insertBefore l n xs.head?).Threads (n :: xs) := by
  have hpush := h.push hn hnext hprev
  cases xs with
  | nil => exact hpush
  | cons m xs =>
    have hfirst : l.prev m = none := h.prev [] _ _ rfl
    simp only [List.head?_cons,insertBefore,hfirst] at hpush ⊢
    exact hpush

theorem insertBefore_other {l : Links Nat} {n a : Nat} {mark : Option Nat}
    (hm : ∀ m ∈ mark, a ≠ m ∧ l.prev m = none) (ha : a ≠ n) :
    (insertBefore l n mark).next a = l.next a ∧ (insertBefore l n mark).prev a = l.prev a := by
  cases mark with
  | none => exact ⟨rfl,rfl⟩
  | some m =>
    obtain ⟨hne,hfirst⟩ := hm m rfl
    simp only [insertBefore,hfirst]
    exact ⟨Function.update_of_ne ha ..,Function.update_of_ne hne ..⟩

/-- The links of the list, and the nodes that are not made yet. -/
theorem linked_threads (entries : List (Entry ι ο)) :
    (makeLinkedEntries entries).links.Threads ((addressed entries).map Prod.fst) ∧
      ∀ a, entries.length ≤ a → (makeLinkedEntries entries).links.next a = none ∧
        (makeLinkedEntries entries).links.prev a = none := by
  induction entries with
  | nil => exact ⟨⟨List.nodup_nil,by simp [addressed],by simp [addressed]⟩,fun _ _ => ⟨rfl,rfl⟩⟩
  | cons e entries ih =>
    obtain ⟨hthreads,hfresh⟩ := ih
    have hin : entries.length ∉ (addressed entries).map Prod.fst :=
      (List.nodup_cons.mp (addressed_nodup (e :: entries))).1
    rw [linked_cons,add_links,linked_size,linked_root]
    obtain ⟨hnext,hprev⟩ := hfresh entries.length (Nat.le_refl _)
    refine ⟨insertBefore_threads hthreads hin hnext hprev,fun a ha => ?_⟩
    rw [List.length_cons] at ha
    have hroot : ∀ m ∈ ((addressed entries).map Prod.fst).head?,
        a ≠ m ∧ (makeLinkedEntries entries).links.prev m = none := by
      intro m hm
      obtain ⟨rest,hrest⟩ := List.head?_eq_some_iff.mp hm
      have hmem : m ∈ (addressed entries).map Prod.fst := by simp [hrest]
      obtain ⟨x,hx,rfl⟩ := List.mem_map.mp hmem
      have hlt := addressed_lt (a := x.1) (e := x.2) hx
      exact ⟨by omega,hthreads.prev [] _ _ hrest⟩
    obtain ⟨h1,h2⟩ := insertBefore_other hroot (by omega : a ≠ entries.length)
    rw [h1,h2]
    exact hfresh a (by omega)

/-- `length` counts the list up to its end. -/
theorem length_threads {l : Links Nat} {xs : List Nat} (h : l.Threads xs) (fuel : Nat)
    (hf : xs.length ≤ fuel) : length l fuel xs.head? = xs.length := by
  have hfrom : ∀ (fuel : Nat) (ys zs : List Nat), xs = ys ++ zs → zs.length ≤ fuel →
      length l fuel zs.head? = zs.length := by
    intro fuel
    induction fuel with
    | zero =>
      intro ys zs _ hf
      simp [length,List.eq_nil_of_length_eq_zero (Nat.le_zero.mp hf)]
    | succ fuel ih =>
      intro ys zs hs hf
      cases zs with
      | nil => rfl
      | cons z zs =>
        have hrest := ih (ys ++ [z]) zs (by simpa using hs) (by simpa using hf)
        rw [List.head?_cons,length,h.next ys z zs hs,hrest]
        rfl
  exact hfrom fuel [] xs rfl hf

theorem remaining_extend (entries : List (Entry ι ο)) (done : List Int) (i : Int) :
    remaining entries (done ++ [i]) = (remaining entries done).filter (fun x => x.2.id ≠ i) := by
  simp only [remaining,List.filter_filter,List.mem_append,List.mem_singleton,not_or,
    Bool.decide_and,Bool.and_comm]

theorem remaining_nodup (hc : Complete entries) (done : List Int) :
    ((remaining entries done).map (fun x => x.2.mark)).Nodup := by
  rw [remaining_marks]
  exact (hc.formed.without done).nodup

/-- What comes after an element comes after its one place. -/
theorem after_mem {α : Type} {us vs : List α} {x y : α} (hn : (us ++ x :: vs).Nodup)
    (hs : List.Sublist [x,y] (us ++ x :: vs)) : y ∈ vs := by
  induction us with
  | nil =>
    rcases List.sublist_cons_iff.mp hs with hs | ⟨r,he,hr⟩
    · exact absurd (hs.subset List.mem_cons_self) (List.nodup_cons.mp hn).1
    · cases he
      exact hr.subset List.mem_cons_self
  | cons u us ih =>
    obtain ⟨hu,hn⟩ := List.nodup_cons.mp hn
    rcases List.sublist_cons_iff.mp hs with hs | ⟨r,he,hr⟩
    · exact ih hn hs
    · cases he
      exact absurd (by simp) hu

/-- What a call in the list leads to: its return further on, and the list without the two. -/
structure Found (entries : List (Entry ι ο)) (done : List Int) (pre : List (Nat × Entry ι ο))
    (a : Nat) (e : Entry ι ο) (b : Nat) (r : Entry ι ο) (mid tail : List (Nat × Entry ι ο)) :
    Prop where
  kind : r.kind = .returnEntry
  id : r.id = e.id
  node : (makeLinkedEntries entries).nodes[a]? = some ⟨some e.value,some b,e.id⟩
  ret : (makeLinkedEntries entries).nodes[b]? = some ⟨some r.value,none,r.id⟩
  lifted : remaining entries (done ++ [e.id]) = pre ++ mid ++ tail

theorem found_return (hc : Complete entries) {done : List Int} {pre post : List (Nat × Entry ι ο)}
    (hs : remaining entries done = pre ++ (a,e) :: post) (hk : e.kind = .callEntry) :
    ∃ b r mid tail, post = mid ++ (b,r) :: tail ∧ Found entries done pre a e b r mid tail := by
  have hin : (a,e) ∈ remaining entries done := by simp [hs]
  obtain ⟨hadd,hdone⟩ := List.mem_filter.mp hin
  obtain ⟨us,vs,hsplit,ha⟩ := mem_addressed.mp hadd
  have hmarks : entries.map Entry.mark = us.map Entry.mark ++ .call e.id :: vs.map Entry.mark := by
    rw [hsplit,List.map_append,List.map_cons,mark_call hk]
  -- the return comes after the call, where the call's node finds it
  have hret : .ret e.id ∈ vs.map Entry.mark := by
    have hpair := hc.formed.paired (.call e.id) (by simp [hmarks])
    have hn := hc.formed.nodup
    rw [hmarks] at hpair hn
    exact after_mem hn hpair
  obtain ⟨b,hb⟩ := linked_found hret
  obtain ⟨us',r,ws,hvs,hws,hr⟩ := linked_matching hb
  obtain ⟨hrk,hrid⟩ := mark_ret hr
  have hnode : (makeLinkedEntries entries).nodes[a]? = some ⟨some e.value,some b,e.id⟩ := by
    rw [hsplit,← ha,linked_node,hb,hk]
    simp
  have hsplit' : entries = (us ++ e :: us') ++ r :: ws := by rw [hsplit,hvs]; simp
  have hret' : (makeLinkedEntries entries).nodes[b]? = some ⟨some r.value,none,r.id⟩ := by
    rw [hsplit',← hws,linked_node,hrk]
    simp
  have hbin : (b,r) ∈ remaining entries done := by
    refine List.mem_filter.mpr ⟨mem_addressed.mpr ⟨_,ws,hsplit',hws⟩,?_⟩
    simpa [hrid] using hdone
  have hlt : b < a := by
    rw [← hws,← ha,hvs]
    simp
    omega
  have hpost : (b,r) ∈ post := by
    have hsorted : (pre ++ (a,e) :: post).Pairwise (fun x y => y.1 < x.1) := by
      rw [← hs]
      exact (addressed_sorted entries).filter _
    rw [hs] at hbin
    rcases List.mem_append.mp hbin with hpre | hbin
    · have := (List.pairwise_append.mp hsorted).2.2 _ hpre (a,e) List.mem_cons_self
      simp at this
      omega
    · rcases List.mem_cons.mp hbin with he | hpost
      · cases he
        omega
      · exact hpost
  obtain ⟨mid,tail,hmid⟩ := List.append_of_mem hpost
  refine ⟨b,r,mid,tail,hmid,hrk,hrid,hnode,hret',?_⟩
  have hn := remaining_nodup hc done
  rw [hs,hmid] at hn
  have hkeep : ∀ x ∈ pre ++ mid ++ tail, x.2.id ≠ e.id := by
    intro x hx hid
    have hm := mark_of_id hid
    simp only [List.map_append,List.map_cons,mark_call hk,hr] at hn
    have hx' : x.2.mark ∈ (pre ++ mid ++ tail).map (fun x => x.2.mark) := List.mem_map_of_mem hx
    simp only [List.map_append] at hx'
    rcases hm with hm | hm <;> rw [hm] at hx' <;> grind
  rw [remaining_extend,hs,hmid]
  have hself : (pre ++ mid ++ tail).filter (fun x => x.2.id ≠ e.id) = pre ++ mid ++ tail :=
    List.filter_eq_self.mpr (fun x hx => by simpa using hkeep x hx)
  rw [← hself]
  simp [List.filter_append,hrid]

section
variable {nodes : List (Node ι ο)} {node : Node ι ο} {l : Links Nat} {a b p n : Nat}

theorem lift_unlinks (hnode : nodes[a]? = some node) (hm : node.matching = some b)
    (hp : l.prev a = some p) (hne : a ≠ p) (hn : l.next a = some n) :
    lift nodes l a = (l.unlink a).bind (fun l => l.unlink b) := by
  simp [lift,Links.unlink,hp,Links.setNext,Function.update_of_ne hne,hn,hnode,hm]

theorem unlift_relinks {l' : Links Nat} (hnode : nodes[a]? = some node)
    (hm : node.matching = some b) (hr : l.relink b = some l') (hp : l'.prev a = some p)
    (hne : a ≠ p) (hn : l'.next a = some n) : unlift nodes l a = l'.relink a := by
  simp only [unlift,hnode,hm,hr,Option.bind_eq_bind,Option.bind_some]
  simp [Links.relink,hp,Links.setNext,Function.update_of_ne hne,hn]

end

/-- Lifting a call takes the two entries of its operation out of the list, and unlifting it
puts every link back. -/
theorem Found.lift {done : List Int} {pre mid tail : List (Nat × Entry ι ο)} {r : Entry ι ο}
    {nodes : List (Node ι ο)} {l : Links Nat} {head : Nat}
    (hf : Found entries done pre a e b r mid tail)
    (hnode : nodes[a]? = (makeLinkedEntries entries).nodes[a]?)
    (h : l.Threads (head :: (pre ++ (a,e) :: (mid ++ (b,r) :: tail)).map Prod.fst)) :
    ∃ l', Porcupine.lift nodes l a = some l' ∧
      l'.Threads (head :: (remaining entries (done ++ [e.id])).map Prod.fst) ∧
      unlift nodes l' a = some l := by
  have hth : l.Threads ((head :: pre.map Prod.fst) ++
      a :: (mid.map Prod.fst ++ b :: tail.map Prod.fst)) := by simpa using h
  obtain ⟨l1,hu1,hth1,hr1,hnext,hprev⟩ := hth.unlink (List.cons_ne_nil _ _)
  have hth1' : l1.Threads ((head :: pre.map Prod.fst ++ mid.map Prod.fst) ++
      b :: tail.map Prod.fst) := by simpa using hth1
  obtain ⟨l2,hu2,hth2,hr2,_⟩ := hth1'.unlink (by simp)
  obtain ⟨p,hp⟩ : ∃ p, l.prev a = some p := by
    rw [hth.prev _ _ _ rfl]
    exact ⟨_,List.getLast?_eq_some_getLast (List.cons_ne_nil _ _)⟩
  obtain ⟨n,hn⟩ : ∃ n, l.next a = some n := by
    rw [hth.next _ _ _ rfl]
    cases mid with
    | nil => exact ⟨_,rfl⟩
    | cons m mid => exact ⟨_,rfl⟩
  have hne : a ≠ p := by
    have hd := hth.nodup
    have hpm : p ∈ head :: pre.map Prod.fst := List.mem_of_getLast? ((hth.prev _ _ _ rfl).symm.trans hp)
    rintro rfl
    exact (List.nodup_append.mp hd).2.2 a hpm a List.mem_cons_self rfl
  rw [hf.node] at hnode
  refine ⟨l2,?_,?_,?_⟩
  · rw [lift_unlinks hnode rfl hp hne hn,hu1]
    exact hu2
  · rw [hf.lifted]
    simpa using hth2
  · -- the links of the call itself were left alone
    rw [unlift_relinks hnode rfl hr2 (hprev.trans hp) hne (hnext.trans hn)]
    exact hr1

end MapReduce.Proofs
