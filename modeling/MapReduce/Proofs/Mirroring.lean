import Mathlib
import MapReduce.Proofs.Bitsets
import MapReduce.Proofs.LinkedEntries

namespace MapReduce.Porcupine
open Linearization

section
variable {ι ο σ : Type}

def Value.input? : Value ι ο → Option ι
  | .input i => some i
  | .output _ => none

def Value.output? : Value ι ο → Option ο
  | .input _ => none
  | .output o => some o

/-- The value at the entry of an operation that is of the given kind. -/
def valueOf {α : Type} (kind : EntryKind) (pick : Value ι ο → Option α)
    (entries : List (Entry ι ο)) (id : Int) : Option α :=
  entries.findSome? (fun e => if e.kind = kind ∧ e.id = id then pick e.value else none)

/-- The length of the longest sequence that is recorded for an operation. -/
def best (longest : List (Option (List Int))) (id : Int) : Nat :=
  ((longest[id.toNat]?.join).map List.length).getD 0

/-- What the object makes of an operation of the history. -/
def entryStep (object : Object ι ο σ) (entries : List (Entry ι ο)) (s : σ) (id : Int) :
    Option σ := do
  let i ← valueOf .callEntry Value.input? entries id
  let o ← valueOf .returnEntry Value.output? entries id
  let (ok,t) := object.step s i o
  if ok then some t else none

end

end MapReduce.Porcupine

namespace MapReduce.Proofs
open MapReduce.Porcupine Linearization

section
variable {ι ο σ : Type}

/-- The nodes of a search, with the head after those of the entries. -/
def nodesOf (entries : List (Entry ι ο)) : List (Node ι ο) :=
  (makeLinkedEntries entries).nodes ++ [⟨none,none,-1⟩]

/-- The stack of calls, from the first on, with the operations `done`, the links that they
leave, and the frames of a depth-first search that are below the present one. -/
inductive Unwinds (entries : List (Entry ι ο)) :
    List (CallsEntry σ) → List Int → Links Nat → List ((List Int × σ) × List Int) → Prop
  | start : l.Threads (entries.length :: (remaining entries []).map Prod.fst) →
      Unwinds entries [] [] l []
  | push : Unwinds entries calls done l fs → remaining entries done = pre ++ (a,e) :: post →
      (∀ x ∈ pre, x.2.kind = .callEntry) → e.kind = .callEntry →
      unlift (nodesOf entries) l' a = some l →
      l'.Threads (entries.length :: (remaining entries (done ++ [e.id])).map Prod.fst) →
      Unwinds entries (calls ++ [⟨a,s⟩]) (done ++ [e.id]) l'
        (((done,s),minimal (post.map (fun x => x.2.mark))) :: fs)

/-- The cache holds the configurations that were gone into. -/
structure Cached (n : Nat) (cache : UInt64 → List (CacheEntry σ)) (seen : List (List Int × σ)) :
    Prop where
  sound : ∀ h, ∀ c ∈ cache h, ∃ z ∈ seen, HasBits n c.linearized z.1 ∧ c.state = z.2
  complete : ∀ z ∈ seen, ∃ b, HasBits n b z.1 ∧ ⟨b,z.2⟩ ∈ cache b.hash
  distinct : ∀ z ∈ seen, z.1.Nodup ∧ ∀ i ∈ z.1, ∃ k < n, i = (k : Nat)

/-- A move of the depth-first search for an order of the operations. -/
abbrev SearchMove (object : Object ι ο σ) (entries : List (Entry ι ο)) :=
  DepthFirst.Move (candidates (entries.map Entry.mark)) (extend (entryStep object entries))
    (Alike (fun s t => object.equal s t = true))

/-- The variables of `checkSingle` stand for a depth-first search: `done` are the operations
in order so far, and `rest` the list from the present entry on. -/
structure Mirrors (entries : List (Entry ι ο)) (s : Search ι ο σ)
    (d : DepthFirst.Search (List Int × σ) Int) (done : List Int)
    (rest : List (Nat × Entry ι ο)) : Prop where
  nodes : s.nodes = nodesOf entries
  head : s.headEntry = entries.length
  stack : ∃ fs, Unwinds entries s.calls done s.links fs ∧
    d.frames = ((done,s.state),minimal (rest.map (fun x => x.2.mark))) :: fs
  place : ∃ pre, remaining entries done = pre ++ rest ∧ ∀ x ∈ pre, x.2.kind = .callEntry
  entry : s.entry = (rest.map Prod.fst).head?
  linearized : HasBits (entries.length / 2) s.linearized done
  cache : Cached (entries.length / 2) s.cache d.seen
  longest : s.longest.length = entries.length / 2

end

section
variable {ι ο σ : Type} {entries : List (Entry ι ο)} {e : Entry ι ο} {object : Object ι ο σ}

theorem entry_unique (hc : Complete entries) {e e' : Entry ι ο} (h : e ∈ entries)
    (h' : e' ∈ entries) (hm : e.mark = e'.mark) : e = e' :=
  List.inj_on_of_nodup_map hc.formed.nodup h h' hm

theorem valueOf_eq {α : Type} {pick : Value ι ο → Option α} {v : α} (hc : Complete entries)
    (h : e ∈ entries) (hv : pick e.value = some v) : valueOf e.kind pick entries e.id = some v := by
  have hsome : (valueOf e.kind pick entries e.id).isSome = true := by
    rw [valueOf,List.findSome?_isSome_iff]
    exact ⟨e,h,by simp [hv]⟩
  obtain ⟨w,hw⟩ := Option.isSome_iff_exists.mp hsome
  obtain ⟨e',he',hf⟩ := List.exists_of_findSome?_eq_some hw
  obtain ⟨⟨hk,hid⟩,hp⟩ := Option.ite_none_right_eq_some.mp hf
  have hmark : e'.mark = e.mark := by rw [Entry.mark,Entry.mark,hk,hid]
  rw [entry_unique hc he' h hmark,hv] at hp
  rw [hw,hp]

theorem mem_remaining {done : List Int} {a : Nat} (h : (a,e) ∈ remaining entries done) :
    e ∈ entries ∧ e.id ∉ done ∧ (a,e) ∈ addressed entries := by
  obtain ⟨hadd,hdone⟩ := List.mem_filter.mp h
  obtain ⟨us,vs,rfl,_⟩ := mem_addressed.mp hadd
  exact ⟨by simp,by simpa using hdone,hadd⟩

theorem nodesOf_get {a : Nat} (h : a < entries.length) :
    (nodesOf entries)[a]? = (makeLinkedEntries entries).nodes[a]? := by
  rw [nodesOf,List.getElem?_append_left (by rw [linked_size]; exact h)]

variable {calls : List (CallsEntry σ)} {done : List Int} {l : Links Nat}
  {fs : List ((List Int × σ) × List Int)}

theorem Unwinds.threads (h : Unwinds entries calls done l fs) :
    l.Threads (entries.length :: (remaining entries done).map Prod.fst) := by
  cases h with
  | start ht => exact ht
  | push _ _ _ _ _ ht => exact ht

theorem Unwinds.distinct (hc : Complete entries) (h : Unwinds entries calls done l fs) :
    done.Nodup ∧ ∀ i ∈ done, ∃ k < entries.length / 2, i = (k : Nat) := by
  induction h with
  | start _ => exact ⟨List.nodup_nil,by simp⟩
  | @push _ done _ _ pre a e post _ _ _ hs _ _ _ _ ih =>
    obtain ⟨he,hnot,_⟩ := mem_remaining (by rw [hs]; simp : (a,e) ∈ remaining entries done)
    refine ⟨List.nodup_append.mpr ⟨ih.1,List.nodup_singleton _,?_⟩,?_⟩
    · intro i hi j hj hij
      rw [List.mem_singleton.mp hj] at hij
      exact hnot (hij ▸ hi)
    · intro i hi
      rcases List.mem_append.mp hi with hi | hi
      · exact ih.2 i hi
      · rw [List.mem_singleton.mp hi]
        exact hc.numbered e he

/-- The stack in the order of its ids. -/
theorem Unwinds.seq (hc : Complete entries) (h : Unwinds entries calls done l fs) :
    calls.mapM (fun v => ((nodesOf entries)[v.entry]?).map Node.id) = some done := by
  induction h with
  | start _ => rfl
  | @push _ done _ _ pre a e post _ s _ hs _ hk _ _ ih =>
    obtain ⟨b,r,mid,tail,rfl,hf⟩ := found_return hc hs hk
    obtain ⟨_,_,hadd⟩ := mem_remaining (by rw [hs]; simp : (a,e) ∈ remaining entries done)
    have hnode := (nodesOf_get (addressed_lt hadd)).trans hf.node
    rw [List.mapM_append,ih]
    simp [hnode]

section
variable {n : Nat} {cache : UInt64 → List (CacheEntry σ)} {seen : List (List Int × σ)}
  {b : Bitset} {ids : List Int} {t : σ}

/-- The cache is asked for a configuration like the present one. -/
theorem Cached.contains (object : Object ι ο σ) (t : σ) (hca : Cached n cache seen)
    (hb : HasBits n b ids) (hd : ids.Nodup) (hin : ∀ i ∈ ids, ∃ k < n, i = (k : Nat)) :
    cacheContains object cache ⟨b,t⟩ = true ↔
      ∃ z ∈ seen, Alike (fun s t => object.equal s t = true) (ids,t) z := by
  rw [cacheContains,List.any_eq_true]
  constructor
  · rintro ⟨c,hcin,hsame⟩
    obtain ⟨hbits,heq⟩ := Bool.and_eq_true_iff.mp hsame
    obtain ⟨z,hz,hholds,hstate⟩ := hca.sound _ c hcin
    have hmem := (hb.eq_iff hholds hin (hca.distinct z hz).2).mp (equals_iff.mp hbits)
    refine ⟨z,hz,(List.perm_ext_iff_of_nodup hd (hca.distinct z hz).1).mpr hmem,?_⟩
    rw [hstate] at heq
    exact heq
  · rintro ⟨z,hz,hperm,heq⟩
    obtain ⟨b',hholds,hcin⟩ := hca.complete z hz
    have hbits := (hb.eq_iff hholds hin (hca.distinct z hz).2).mpr (fun i => hperm.mem_iff)
    subst hbits
    exact ⟨_,hcin,Bool.and_eq_true_iff.mpr ⟨equals_iff.mpr rfl,heq⟩⟩

theorem Cached.add (hca : Cached n cache seen) (hb : HasBits n b ids) (hd : ids.Nodup)
    (hin : ∀ i ∈ ids, ∃ k < n, i = (k : Nat)) :
    Cached n (Function.update cache b.hash (cache b.hash ++ [⟨b,t⟩])) ((ids,t) :: seen) where
  sound h c hcin := by
    have hold : c ∈ cache h → ∃ z ∈ (ids,t) :: seen, HasBits n c.linearized z.1 ∧ c.state = z.2 := by
      intro hcin
      obtain ⟨z,hz,hholds⟩ := hca.sound h c hcin
      exact ⟨z,List.mem_cons_of_mem _ hz,hholds⟩
    by_cases hh : h = b.hash
    · subst hh
      rw [Function.update_self] at hcin
      rcases List.mem_append.mp hcin with hcin | hcin
      · exact hold hcin
      · rw [List.mem_singleton.mp hcin]
        exact ⟨_,List.mem_cons_self,hb,rfl⟩
    · rw [Function.update_of_ne hh] at hcin
      exact hold hcin
  complete z hz := by
    rcases List.mem_cons.mp hz with rfl | hz
    · exact ⟨b,hb,by simp⟩
    · obtain ⟨b',hholds,hcin⟩ := hca.complete z hz
      refine ⟨b',hholds,?_⟩
      by_cases hh : b'.hash = b.hash
      · rw [hh,Function.update_self]
        rw [hh] at hcin
        exact List.mem_append_left _ hcin
      · rw [Function.update_of_ne hh]
        exact hcin
  distinct z hz := by
    rcases List.mem_cons.mp hz with rfl | hz
    · exact ⟨hd,hin⟩
    · exact hca.distinct z hz

end

variable {s : Search ι ο σ} {d : DepthFirst.Search (List Int × σ) Int}
  {rest post : List (Nat × Entry ι ο)} {a : Nat} {computePartial : Bool}

theorem Mirrors.threads (hm : Mirrors entries s d done rest) :
    s.links.Threads (entries.length :: (remaining entries done).map Prod.fst) := by
  obtain ⟨fs,hu,_⟩ := hm.stack
  exact Unwinds.threads hu

theorem Mirrors.first (hm : Mirrors entries s d done rest) :
    s.links.next s.headEntry = ((remaining entries done).map Prod.fst).head? := by
  rw [hm.head]
  exact hm.threads.next [] _ _ rfl

/-- The entry after one of the list is the next one in it. -/
theorem next_entry {pre : List (Nat × Entry ι ο)}
    (ht : l.Threads (entries.length :: (remaining entries done).map Prod.fst))
    (hs : remaining entries done = pre ++ (a,e) :: post) :
    l.next a = (post.map Prod.fst).head? := by
  rw [hs] at ht
  exact ht.next (entries.length :: pre.map Prod.fst) _ _ (by simp)

theorem Mirrors.goes_on {pre : List (Nat × Entry ι ο)} (hm : Mirrors entries s d done rest)
    {x : Nat × Entry ι ο} (hs : remaining entries done = pre ++ x :: post) :
    ∃ y, s.links.next s.headEntry = some y := by
  rw [hm.first,hs]
  cases pre <;> exact ⟨_,rfl⟩

/-- An entry that is passed over. -/
theorem Mirrors.pass (hm : Mirrors entries s d done ((a,e) :: post)) (hk : e.kind = .callEntry) :
    ∃ todo fs, d.frames = ((done,s.state),e.id :: todo) :: fs ∧
      Mirrors entries { s with entry := s.links.next a } ⟨((done,s.state),todo) :: fs,d.seen⟩
        done post := by
  obtain ⟨fs,hu,hframes⟩ := hm.stack
  obtain ⟨pre,hs,hpre⟩ := hm.place
  refine ⟨minimal (post.map (fun x => x.2.mark)),fs,?_,hm.nodes,hm.head,⟨fs,hu,rfl⟩,
    ⟨pre ++ [(a,e)],by simp [hs],?_⟩,next_entry hm.threads hs,hm.linearized,hm.cache,hm.longest⟩
  · rw [hframes,List.map_cons,mark_call hk]
    rfl
  · intro x hx
    rcases List.mem_append.mp hx with hx | hx
    · exact hpre x hx
    · rw [List.mem_singleton.mp hx]
      exact hk

/-- A call in the list, with its return and what the object makes of the operation. -/
theorem Mirrors.attempt (object : Object ι ο σ) (hc : Complete entries)
    (hm : Mirrors entries s d done ((a,e) :: post))
    (hk : e.kind = .callEntry) : ∃ (b : Nat) (i : ι) (o : ο) (ret : Node ι ο),
      s.nodes[a]? = some ⟨some (.input i),some b,e.id⟩ ∧ s.nodes[b]? = some ret ∧
      Search.stepNodes object s.state ⟨some (.input i),some b,e.id⟩ ret =
        some (object.step s.state i o) ∧
      entryStep object entries s.state e.id = if (object.step s.state i o).1 = true
        then some (object.step s.state i o).2 else none := by
  obtain ⟨pre,hs,_⟩ := hm.place
  obtain ⟨b,r,mid,tail,rfl,hf⟩ := found_return hc hs hk
  obtain ⟨he,_,hadd⟩ := mem_remaining (by rw [hs]; simp : (a,e) ∈ remaining entries done)
  obtain ⟨hr,_,hadd'⟩ := mem_remaining (by rw [hs]; simp : (b,r) ∈ remaining entries done)
  obtain ⟨i,hi⟩ := hc.input e he hk
  obtain ⟨o,ho⟩ := hc.output r hr hf.kind
  have hin : valueOf .callEntry Value.input? entries e.id = some i := by
    rw [← hk]
    exact valueOf_eq hc he (by rw [hi]; rfl)
  have hout : valueOf .returnEntry Value.output? entries e.id = some o := by
    rw [← hf.kind,← hf.id]
    exact valueOf_eq hc hr (by rw [ho]; rfl)
  have hnode := (nodesOf_get (addressed_lt hadd)).trans hf.node
  have hret := (nodesOf_get (addressed_lt hadd')).trans hf.ret
  rw [← hm.nodes] at hnode hret
  rw [hi] at hnode
  refine ⟨b,i,o,_,hnode,hret,by rw [Search.stepNodes,ho],?_⟩
  simp only [entryStep,hin,hout,Option.bind_eq_bind,Option.bind_some]

/-- A call that goes onto the stack. -/
theorem Mirrors.visit (newState : σ) (hc : Complete entries)
    (hm : Mirrors entries s d done ((a,e) :: post)) (hk : e.kind = .callEntry) :
    ∃ (pos : Nat) (links : Links Nat) (bits : Bitset),
      e.id.toNat? = some pos ∧ s.linearized.set pos = some bits ∧
      HasBits (entries.length / 2) bits (done ++ [e.id]) ∧ (done ++ [e.id]).Nodup ∧
      (∀ i ∈ done ++ [e.id], ∃ k < entries.length / 2, i = (k : Nat)) ∧
      lift s.nodes s.links a = some links ∧
      ∀ todo fs, d.frames = ((done,s.state),e.id :: todo) :: fs →
        Mirrors entries { s with
            cache := Function.update s.cache bits.hash (s.cache bits.hash ++ [⟨bits,newState⟩])
            calls := s.calls ++ [⟨a,s.state⟩]
            state := newState
            linearized := bits
            links
            entry := links.next s.headEntry }
          ⟨((done ++ [e.id],newState),candidates (entries.map Entry.mark) (done ++ [e.id],newState)) ::
            ((done,s.state),todo) :: fs,(done ++ [e.id],newState) :: d.seen⟩
          (done ++ [e.id]) (remaining entries (done ++ [e.id])) := by
  obtain ⟨fs,hu,hframes⟩ := hm.stack
  obtain ⟨pre,hs,hpre⟩ := hm.place
  obtain ⟨b,r,mid,tail,rfl,hf⟩ := found_return hc hs hk
  obtain ⟨he,_,hadd⟩ := mem_remaining (by rw [hs]; simp : (a,e) ∈ remaining entries done)
  have ht := hm.threads
  rw [hs] at ht
  obtain ⟨links,hlift,hthreads,hunlift⟩ := hf.lift (nodesOf_get (addressed_lt hadd)) ht
  have hu' := Unwinds.push (s := s.state) hu hs hpre hk hunlift hthreads
  obtain ⟨hd,hin⟩ := hu'.distinct hc
  obtain ⟨pos,hpos,hid⟩ := hc.numbered e he
  obtain ⟨bits,hbits,hholds⟩ := hm.linearized.set hpos
  rw [← hid] at hholds
  refine ⟨pos,links,bits,by rw [hid]; rfl,hbits,hholds,hd,hin,by rw [hm.nodes]; exact hlift,?_⟩
  intro todo fs' hframes'
  have htodo : todo = minimal ((mid ++ (b,r) :: tail).map (fun x => x.2.mark)) ∧ fs' = fs := by
    rw [hframes,List.map_cons,mark_call hk] at hframes'
    simp only [minimal,List.cons.injEq,Prod.mk.injEq] at hframes'
    exact ⟨hframes'.1.2.2.symm,hframes'.2.symm⟩
  rw [htodo.1,htodo.2]
  refine ⟨hm.nodes,hm.head,⟨_,hu',?_⟩,⟨[],rfl,by simp⟩,?_,hholds,hm.cache.add hholds hd hin,hm.longest⟩
  · rw [candidates,← remaining_marks]
  · rw [hm.head]
    exact hthreads.next [] _ _ rfl

/-- A round that stands at a call is a move of the search. -/
theorem Mirrors.call (object : Object ι ο σ) (computePartial : Bool) (hc : Complete entries)
    (hm : Mirrors entries s d done ((a,e) :: post))
    (hk : e.kind = .callEntry) : ∃ s' d' done' rest',
      Search.round object computePartial false s = some (.inl s') ∧
      SearchMove object entries d d' ∧ Mirrors entries s' d' done' rest' ∧
      s'.longest = s.longest := by
  obtain ⟨b,i,o,ret,hnode,hret,hstep,hentry⟩ := hm.attempt object hc hk
  obtain ⟨pre,hs,_⟩ := hm.place
  obtain ⟨x,hx⟩ := hm.goes_on hs
  have hat : s.entry = some a := hm.entry
  have hround : Search.round object computePartial false s =
      (Search.tryCall object s a ⟨some (.input i),some b,e.id⟩ ret).map .inl := by
    simp [Search.round,hx,hat,hnode,hret]
  obtain ⟨todo,fs,hframes,hpass⟩ := hm.pass hk
  have hd : d = ⟨((done,s.state),e.id :: todo) :: fs,d.seen⟩ := by
    rw [← hframes]
  cases hok : (object.step s.state i o).1 with
  | false =>
    have hfail : extend (entryStep object entries) (done,s.state) e.id = none := by
      rw [extend,hentry,hok]
      rfl
    refine ⟨_,_,_,_,?_,?_,hpass,rfl⟩
    · rw [hround,Search.tryCall,hstep]
      simp [hok]
    · rw [hd]
      exact .fail hfail
  | true =>
    have hnext : extend (entryStep object entries) (done,s.state) e.id =
        some (done ++ [e.id],(object.step s.state i o).2) := by
      rw [extend,hentry,hok]
      rfl
    obtain ⟨pos,links,bits,hpos,hbits,hholds,hdist,hin,hlift,hmirror⟩ :=
      hm.visit (object.step s.state i o).2 hc hk
    have hcached := hm.cache.contains object (object.step s.state i o).2 hholds hdist hin
    cases hcon : cacheContains object s.cache ⟨bits,(object.step s.state i o).2⟩ with
    | true =>
      refine ⟨_,_,_,_,?_,?_,hpass,rfl⟩
      · rw [hround,Search.tryCall,hstep]
        simp [hok,hpos,hbits,hcon]
      · rw [hd]
        exact .skip hnext (hcached.mp hcon)
    | false =>
      refine ⟨_,_,_,_,?_,?_,hmirror todo fs hframes,rfl⟩
      · rw [hround,Search.tryCall,hstep]
        simp [hok,hpos,hbits,hcon,hlift]
      · rw [hd]
        refine .visit hnext (fun z hz hsame => ?_)
        rw [hcached.mpr ⟨z,hz,hsame⟩] at hcon
        cases hcon

/-- What recording a sequence does: it stands for its operations where it is longer. -/
structure Improves (seq ids : List Int) (longest longest' : List (Option (List Int))) : Prop where
  length : longest'.length = longest.length
  origin : ∀ (k : Nat) q, longest'[k]? = some (some q) →
    q = seq ∧ (k : Int) ∈ ids ∨ longest[k]? = some (some q)
  grows : ∀ i, best longest i ≤ best longest' i
  reached : ∀ i ∈ ids, seq.length ≤ best longest' i

theorem record_one (seq : List Int) {longest : List (Option (List Int))} {k : Nat}
    (hk : k < longest.length) : ∃ longest', Search.recordLongest seq longest k = some longest' ∧
      Improves seq [(k : Int)] longest longest' := by
  have hpos : (k : Int).toNat? = some k := rfl
  cases hshort : longest[k].all (fun q => q.length < seq.length) with
  | true =>
    refine ⟨longest.set k (some seq),?_,List.length_set,?_,?_,?_⟩
    · simp [Search.recordLongest,hpos,List.getElem?_eq_getElem hk,hshort]
    · intro j q hj
      by_cases he : k = j
      · subst he
        rw [List.getElem?_set_self hk] at hj
        exact .inl ⟨by simpa using hj.symm,List.mem_cons_self⟩
      · rw [List.getElem?_set_ne he] at hj
        exact .inr hj
    · intro i
      by_cases he : k = i.toNat
      · rw [best,best,← he,List.getElem?_set_self hk,List.getElem?_eq_getElem hk]
        cases hold : longest[k] with
        | none => simp
        | some q =>
          rw [hold] at hshort
          simp at hshort ⊢
          omega
      · rw [best,best,List.getElem?_set_ne he]
    · intro i hi
      rw [List.mem_singleton.mp hi,best,Int.toNat_natCast,List.getElem?_set_self hk]
      simp
  | false =>
    refine ⟨longest,?_,rfl,fun j q hj => .inr hj,fun i => Nat.le_refl _,?_⟩
    · simp [Search.recordLongest,hpos,List.getElem?_eq_getElem hk,hshort]
    · intro i hi
      rw [List.mem_singleton.mp hi,best,Int.toNat_natCast,List.getElem?_eq_getElem hk]
      cases hold : longest[k] with
      | none => simp [hold] at hshort
      | some q =>
        rw [hold] at hshort
        simpa using hshort

theorem record_all (seq : List Int) {ids : List Int} {longest : List (Option (List Int))}
    (hin : ∀ i ∈ ids, ∃ k < longest.length, i = (k : Nat)) :
    ∃ longest', ids.foldlM (Search.recordLongest seq) longest = some longest' ∧
      Improves seq ids longest longest' := by
  induction ids generalizing longest with
  | nil => exact ⟨longest,rfl,rfl,fun _ _ h => .inr h,fun _ => Nat.le_refl _,by simp⟩
  | cons i ids ih =>
    obtain ⟨k,hk,rfl⟩ := hin i List.mem_cons_self
    obtain ⟨mid,hmid,hone⟩ := record_one seq hk
    have hin' : ∀ j ∈ ids, ∃ k < mid.length, j = (k : Nat) := by
      rw [hone.length]
      exact fun j hj => hin j (List.mem_cons_of_mem _ hj)
    obtain ⟨longest',hrest,hall⟩ := ih hin'
    refine ⟨longest',?_,hall.length.trans hone.length,?_,?_,?_⟩
    · rw [List.foldlM_cons,hmid]
      exact hrest
    · intro j q hj
      rcases hall.origin j q hj with ⟨hq,hj⟩ | hj
      · exact .inl ⟨hq,List.mem_cons_of_mem _ hj⟩
      · rcases hone.origin j q hj with ⟨hq,hj⟩ | hj
        · exact .inl ⟨hq,by rw [List.mem_singleton.mp hj]; exact List.mem_cons_self⟩
        · exact .inr hj
    · exact fun j => (hone.grows j).trans (hall.grows j)
    · intro j hj
      rcases List.mem_cons.mp hj with rfl | hj
      · exact (hone.reached _ List.mem_cons_self).trans (hall.grows _)
      · exact hall.reached j hj

theorem Mirrors.at_return (hm : Mirrors entries s d done ((a,e) :: post))
    (hk : e.kind = .returnEntry) : ∃ (x : Nat) (node : Node ι ο),
      s.links.next s.headEntry = some x ∧ s.entry = some a ∧ s.nodes[a]? = some node ∧
      node.matching = none := by
  obtain ⟨pre,hs,_⟩ := hm.place
  obtain ⟨_,_,hadd⟩ := mem_remaining (by rw [hs]; simp : (a,e) ∈ remaining entries done)
  obtain ⟨us,vs,hsplit,ha⟩ := mem_addressed.mp hadd
  obtain ⟨x,hx⟩ := hm.goes_on hs
  have hnode : s.nodes[a]? = some ⟨some e.value,none,e.id⟩ := by
    rw [hm.nodes,nodesOf_get (addressed_lt hadd),← ha,hsplit,linked_node,hk]
    rfl
  exact ⟨x,_,hx,hm.entry,hnode,rfl⟩

/-- The sequence on the stack can be recorded. -/
theorem Mirrors.records (hc : Complete entries) (hm : Mirrors entries s d done rest) :
    ∃ longest', s.updateLongest = some longest' ∧ Improves done done s.longest longest' := by
  obtain ⟨fs,hu,_⟩ := hm.stack
  have hin := (hu.distinct hc).2
  rw [← hm.longest] at hin
  obtain ⟨longest',hrec,himp⟩ := record_all done hin
  refine ⟨longest',?_,himp⟩
  rw [Search.updateLongest,Search.seq,hm.nodes,hu.seq hc]
  exact hrec

/-- The last call on the stack, and the search without it. -/
theorem Mirrors.taken_back (hc : Complete entries) (hm : Mirrors entries s d done rest)
    (hne : s.calls ≠ []) : ∃ (top : CallsEntry σ) (node : Node ι ο) (pos : Nat) (links : Links Nat)
      (bits : Bitset) (done' : List Int) (post : List (Nat × Entry ι ο))
      (fs : List ((List Int × σ) × List Int)),
      s.calls.getLast? = some top ∧ s.nodes[top.entry]? = some node ∧ node.id.toNat? = some pos ∧
      s.linearized.clear pos = some bits ∧ unlift s.nodes s.links top.entry = some links ∧
      d.frames = ((done,s.state),minimal (rest.map (fun x => x.2.mark))) ::
        ((done',top.state),minimal (post.map (fun x => x.2.mark))) :: fs ∧
      ∀ longest : List (Option (List Int)), longest.length = entries.length / 2 →
        Mirrors entries { s with
            longest
            state := top.state
            linearized := bits
            calls := s.calls.dropLast
            links
            entry := links.next top.entry }
          ⟨((done',top.state),minimal (post.map (fun x => x.2.mark))) :: fs,d.seen⟩ done' post := by
  obtain ⟨fs,hu,hframes⟩ := hm.stack
  have hholds := hm.linearized
  generalize hcalls : s.calls = calls at hu hne
  generalize hlinks : s.links = links at hu
  cases hu with
  | start _ => exact absurd rfl hne
  | @push calls' done' l fs' pre a e post _ s' hu' hs hpre hk hun ht =>
    obtain ⟨b,r,mid,tail,rfl,hf⟩ := found_return hc hs hk
    obtain ⟨he,hnot,hadd⟩ := mem_remaining (by rw [hs]; simp : (a,e) ∈ remaining entries done')
    have hnode := (nodesOf_get (addressed_lt hadd)).trans hf.node
    rw [← hm.nodes] at hnode hun
    obtain ⟨pos,hpos,hid⟩ := hc.numbered e he
    rw [hid] at hholds hnot
    obtain ⟨bits,hbits,hholds⟩ := hholds.clear hpos hnot
    refine ⟨⟨a,s'⟩,_,pos,l,bits,done',_,fs',List.getLast?_concat,hnode,by rw [hid]; rfl,hbits,hun,
      hframes,fun longest hlen => ?_⟩
    refine ⟨hm.nodes,hm.head,⟨fs',?_,rfl⟩,⟨pre ++ [(a,e)],by simp [hs],?_⟩,
      next_entry hu'.threads hs,hholds,hm.cache,hlen⟩
    · simp only [List.dropLast_concat]
      exact hu'
    · intro y hy
      rcases List.mem_append.mp hy with hy | hy
      · exact hpre y hy
      · rw [List.mem_singleton.mp hy]
        exact hk

/-- A round that stands at a return takes back the last call. -/
theorem Mirrors.back (object : Object ι ο σ) (computePartial : Bool) (hc : Complete entries)
    (hm : Mirrors entries s d done ((a,e) :: post))
    (hk : e.kind = .returnEntry) (hne : s.calls ≠ []) : ∃ s' d' done' rest',
      Search.round object computePartial false s = some (.inl s') ∧
      SearchMove object entries d d' ∧ Mirrors entries s' d' done' rest' ∧
      if computePartial = true then Improves done done s.longest s'.longest
      else s'.longest = s.longest := by
  obtain ⟨x,node,hx,hat,hnode,hnone⟩ := hm.at_return hk
  obtain ⟨top,node',pos,links,bits,done',post',fs,hlast,htop,hpos,hbits,hun,hframes,hmirror⟩ :=
    hm.taken_back hc hne
  obtain ⟨longest',hupdate,himp⟩ := hm.records hc
  have hnil : minimal (((a,e) :: post).map (fun x => x.2.mark)) = [] := by
    rw [List.map_cons,mark_return hk]
    rfl
  rw [hnil] at hframes
  have hmove : SearchMove object entries d
      ⟨((done',top.state),minimal (post'.map (fun x => x.2.mark))) :: fs,d.seen⟩ := by
    have hd : d = ⟨d.frames,d.seen⟩ := rfl
    rw [hd,hframes]
    exact .back
  cases computePartial with
  | false =>
    refine ⟨_,_,done',post',?_,hmove,hmirror _ hm.longest,rfl⟩
    simp [Search.round,hx,hat,hnode,hnone,hlast,Search.backtrack,htop,hpos,hbits,hun]
  | true =>
    refine ⟨_,_,done',post',?_,hmove,hmirror longest' (himp.length.trans hm.longest),himp⟩
    simp [Search.round,hx,hat,hnode,hnone,hlast,Search.backtrack,hupdate,htop,hpos,hbits,hun]

/-- A return with nothing to take back ends the search. -/
theorem Mirrors.exhausted (object : Object ι ο σ) (computePartial : Bool)
    (hm : Mirrors entries s d done ((a,e) :: post))
    (hk : e.kind = .returnEntry) (hnil : s.calls = []) :
    Search.round object computePartial false s = some (.inr ⟨false,s.longest⟩) ∧
      done = [] ∧ d.frames = [(([],s.state),[])] := by
  obtain ⟨x,node,hx,hat,hnode,hnone⟩ := hm.at_return hk
  obtain ⟨fs,hu,hframes⟩ := hm.stack
  rw [hnil] at hu
  generalize hcalls : ([] : List (CallsEntry σ)) = calls at hu
  cases hu with
  | start _ =>
    refine ⟨by simp [Search.round,hx,hat,hnode,hnone,hnil],rfl,?_⟩
    rw [hframes,List.map_cons,mark_return hk]
    rfl
  | push => simp at hcalls

/-- An empty list ends the search. -/
theorem Mirrors.finished (hc : Complete entries) (hm : Mirrors entries s d done rest)
    (hnil : remaining entries done = []) (kill : Bool) :
    Search.round object computePartial kill s =
      some (.inr ⟨true,s.longest.map (fun _ => some done)⟩) := by
  obtain ⟨fs,hu,_⟩ := hm.stack
  have hx : s.links.next s.headEntry = none := by rw [hm.first,hnil]; rfl
  have hseq : s.seq = some done := by rw [Search.seq,hm.nodes]; exact hu.seq hc
  simp [Search.round,hx,hseq]

/-- A search that reads the kill flag ends at once. -/
theorem Mirrors.killed (hm : Mirrors entries s d done rest) (hne : remaining entries done ≠ []) :
    Search.round object computePartial true s = some (.inr ⟨false,s.longest⟩) := by
  obtain ⟨x,xs,hx⟩ := List.exists_cons_of_ne_nil hne
  have hx : s.links.next s.headEntry = some x.1 := by rw [hm.first,hx]; rfl
  simp [Search.round,hx]

/-- In a list that is not empty the search stands at an entry: the returns are not passed. -/
theorem Mirrors.stands (hc : Complete entries) (hm : Mirrors entries s d done rest)
    (hne : remaining entries done ≠ []) : ∃ a e post, rest = (a,e) :: post := by
  obtain ⟨pre,hs,hpre⟩ := hm.place
  obtain ⟨x,xs,hx⟩ := List.exists_cons_of_ne_nil hne
  have hwf := hc.formed.without done
  rw [← remaining_marks] at hwf
  have hin : x.2.mark ∈ (remaining entries done).map (fun x => x.2.mark) :=
    List.mem_map_of_mem (by rw [hx]; exact List.mem_cons_self)
  have hret := (hwf.paired _ hin).subset (List.mem_cons_of_mem _ List.mem_cons_self)
  obtain ⟨y,hy,hmark⟩ := List.mem_map.mp hret
  rw [hs] at hy
  rcases List.mem_append.mp hy with hy | hy
  · have hk := hpre y hy
    rw [(mark_ret hmark).1] at hk
    cases hk
  · cases rest with
    | nil => cases hy
    | cons z zs => exact ⟨z.1,z.2,zs,rfl⟩

/-- Before the first round nothing is in order and nothing was tried. -/
theorem start_mirrors (object : Object ι ο σ) (entries : List (Entry ι ο)) :
    Mirrors entries (Search.start object entries)
      ⟨[(([],object.init),candidates (entries.map Entry.mark) ([],object.init))],[]⟩ []
      (remaining entries []) := by
  have hall : remaining entries [] = addressed entries := by simp [remaining]
  obtain ⟨hthreads,hfresh⟩ := linked_threads entries
  have hsize := linked_size entries
  have hn : length (makeLinkedEntries entries).links (makeLinkedEntries entries).nodes.length
      (makeLinkedEntries entries).root = entries.length := by
    have hlen : ((addressed entries).map Prod.fst).length = entries.length := by
      rw [List.length_map,← List.length_map (f := Prod.snd),addressed_snd]
    rw [linked_root,length_threads hthreads _ (by rw [hlen,hsize]),hlen]
  have hnew : entries.length ∉ (addressed entries).map Prod.fst := by
    intro h
    obtain ⟨x,hx,he⟩ := List.mem_map.mp h
    have := addressed_lt (a := x.1) (e := x.2) hx
    omega
  obtain ⟨hnext,hprev⟩ := hfresh entries.length (Nat.le_refl _)
  have ht := insertBefore_threads hthreads hnew hnext hprev
  refine ⟨rfl,hsize,⟨[],?_,?_⟩,⟨[],rfl,by simp⟩,?_,?_,?_,?_⟩
  · refine .start ?_
    rw [hall]
    simp only [Search.start,linked_root,hsize]
    exact ht
  · rw [remaining_marks]
    rfl
  · rw [hall]
    exact linked_root entries
  · simp only [Search.start,hn]
    exact hasBits_new _
  · exact ⟨fun _ _ h => by simp [Search.start] at h,fun _ h => by simp at h,fun _ h => by simp at h⟩
  · simp only [Search.start,hn,List.length_replicate]

end

end MapReduce.Proofs
