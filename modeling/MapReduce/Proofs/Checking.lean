import Mathlib
import MapReduce.Proofs.Mirroring

namespace MapReduce.Porcupine

/-- Of two equal states the second accepts whatever the first does, and they stay equal. It
is all that the checker needs of `Equal`. -/
def Object.Respects {ι ο σ : Type} (object : Object ι ο σ) : Prop :=
  ∀ s t, object.equal s t = true → ∀ i o, (object.step s i o).1 = true →
    (object.step t i o).1 = true ∧
      object.equal (object.step s i o).2 (object.step t i o).2 = true

end MapReduce.Porcupine

namespace MapReduce.Proofs
open MapReduce.Porcupine Linearization

section
variable {ι ο σ : Type} (object : Object ι ο σ) (entries : List (Entry ι ο))

/-- A history is linearizable: its operations can be put in an order that the object accepts
and that no return and later call contradict. -/
def LinearizableHistory : Prop :=
  Completes (entryStep object entries) (entries.map Entry.mark) object.init

/-- A beginning of such an order. -/
def PartialLinearization (seq : List Int) : Prop :=
  ∃ t, Begins (entryStep object entries) (entries.map Entry.mark) object.init seq t

/-- What is recorded for each operation is a longest beginning of an order with the operation
in it, and nothing if there is none. -/
structure Exact (longest : List (Option (List Int))) : Prop where
  size : longest.length = entries.length / 2
  valid : ∀ (k : Nat) q, longest[k]? = some (some q) →
    (k : Int) ∈ q ∧ PartialLinearization object entries q
  longest : ∀ k < entries.length / 2, ∀ q, PartialLinearization object entries q → (k : Int) ∈ q →
    ∃ p, longest[k]? = some (some p) ∧ q.length ≤ p.length

/-- What is known of a configuration that the search has left: nothing can be made of it, and
its beginnings are all recorded. -/
def Settled (computePartial : Bool) (longest : List (Option (List Int))) (x : List Int × σ) : Prop :=
  Dead (entryStep object entries) (entries.map Entry.mark) x ∧
    (computePartial = true →
      Bounded (entryStep object entries) (entries.map Entry.mark) (best longest) x)

/-- The state of a search between two rounds. -/
structure Searching (computePartial : Bool) (s : Search ι ο σ)
    (d : DepthFirst.Search (List Int × σ) Int) (done : List Int)
    (rest : List (Nat × Entry ι ο)) : Prop where
  mirrors : Mirrors entries s d done rest
  explored : DepthFirst.Explored (candidates (entries.map Entry.mark))
    (extend (entryStep object entries)) (Settled object entries computePartial s.longest)
    ([],object.init) d
  recorded : ∀ (k : Nat) q, s.longest[k]? = some (some q) →
    (k : Int) ∈ q ∧ PartialLinearization object entries q

/-- What a verdict of `checkSingle` means. -/
inductive Means (computePartial : Bool) (kill : Nat → Bool) : Verdict → Prop
  | order : Linearizes (entryStep object entries) (entries.map Entry.mark) object.init seq →
      Means computePartial kill ⟨true,List.replicate (entries.length / 2) (some seq)⟩
  | noOrder : Settled object entries computePartial longest ([],object.init) →
      (∀ (k : Nat) q, longest[k]? = some (some q) →
        (k : Int) ∈ q ∧ PartialLinearization object entries q) →
      longest.length = entries.length / 2 → Means computePartial kill ⟨false,longest⟩
  | killed : kill k = true → Means computePartial kill ⟨false,longest⟩

/-- What is left to do for a search with these frames. -/
def searchWork (frames : List ((List Int × σ) × List Int)) : Nat :=
  DepthFirst.work (left (entries.map Entry.mark)) entries.length frames

end

variable {ι ο σ : Type} {object : Object ι ο σ} {entries : List (Entry ι ο)}
  {computePartial : Bool} {s : Search ι ο σ} {d d' : DepthFirst.Search (List Int × σ) Int}
  {done : List Int} {rest : List (Nat × Entry ι ο)}

theorem respects_simulates (h : object.Respects) (entries : List (Entry ι ο)) :
    Simulates (entryStep object entries) (fun s t => object.equal s t = true) := by
  intro s t he id s' hs
  obtain ⟨i,hi,hs⟩ := Option.bind_eq_some_iff.mp hs
  obtain ⟨o,ho,hs⟩ := Option.bind_eq_some_iff.mp hs
  obtain ⟨hok,hs⟩ := Option.ite_none_right_eq_some.mp hs
  cases hs
  obtain ⟨hok',he'⟩ := h s t he i o hok
  refine ⟨(object.step t i o).2,?_,he'⟩
  simp [entryStep,hi,ho,hok']

theorem start_searching (object : Object ι ο σ) (entries : List (Entry ι ο)) :
    Searching object entries computePartial (Search.start object entries)
      ⟨[(([],object.init),candidates (entries.map Entry.mark) ([],object.init))],[]⟩ []
      (remaining entries []) where
  mirrors := start_mirrors object entries
  explored := DepthFirst.start_explored ..
  recorded k q hq := by
    have hin := List.mem_of_getElem? hq
    rw [Search.start] at hin
    simp at hin

theorem Searching.begins (hc : Complete entries)
    (h : Searching object entries computePartial s d done rest) :
    PartialLinearization object entries done := by
  obtain ⟨fs,_,hframes⟩ := h.mirrors.stack
  have hstacked := h.explored.stacked
  rw [hframes] at hstacked
  exact ⟨s.state,stacked_begins hc.formed hstacked⟩

/-- A configuration that is left is settled once its successors are, and its sequence is
recorded. -/
theorem Mirrors.settles (hc : Complete entries) (hm : Mirrors entries s d done rest)
    (hne : remaining entries done ≠ []) {longest : List (Option (List Int))}
    (hown : computePartial = true → d.frames.head?.map Prod.snd = some [] →
      ∀ a ∈ done, done.length ≤ best longest a) {x : List Int × σ}
    {fs : List ((List Int × σ) × List Int)} (hx : d.frames = (x,[]) :: fs)
    (hall : ∀ a ∈ candidates (entries.map Entry.mark) x, ∀ y,
      extend (entryStep object entries) x a = some y →
        Settled object entries computePartial longest y) :
    Settled object entries computePartial longest x := by
  obtain ⟨fs',_,hframes⟩ := hm.stack
  rw [hx,List.head?_cons,Option.map_some] at hown
  rw [hframes] at hx
  obtain ⟨rfl,_⟩ := Prod.mk.inj (List.cons.inj hx).1
  refine ⟨dead_settles hc.formed ?_ (fun a ha y hy => (hall a ha y hy).1),fun hp => ?_⟩
  · rw [← remaining_marks]
    simpa using hne
  · exact bounded_settles hc.formed (hown hp rfl) (fun a ha y hy => (hall a ha y hy).2 hp)

/-- A move keeps what the search has found out. -/
theorem Mirrors.explores (hc : Complete entries) (hr : object.Respects)
    (hm : Mirrors entries s d done rest) (hne : remaining entries done ≠ [])
    {longest : List (Option (List Int))}
    (he : DepthFirst.Explored (candidates (entries.map Entry.mark))
      (extend (entryStep object entries)) (Settled object entries computePartial longest)
      ([],object.init) d)
    (hown : computePartial = true → d.frames.head?.map Prod.snd = some [] →
      ∀ a ∈ done, done.length ≤ best longest a)
    (hmove : SearchMove object entries d d') :
    DepthFirst.Explored (candidates (entries.map Entry.mark))
      (extend (entryStep object entries)) (Settled object entries computePartial longest)
      ([],object.init) d' := by
  have hsim := respects_simulates hr entries
  refine he.move search_graded (fun y z hyz hz => ?_)
    (fun x fs hx hall => hm.settles hc hne hown hx hall) hmove
  exact ⟨hz.1.alike hc.formed hsim hyz,fun hp => (hz.2 hp).alike hsim hyz⟩

theorem Settled.mono {longest longest' : List (Option (List Int))} {x : List Int × σ}
    (hle : ∀ i, best longest i ≤ best longest' i)
    (h : Settled object entries computePartial longest x) :
    Settled object entries computePartial longest' x :=
  ⟨h.1,fun hp => (h.2 hp).mono hle⟩

/-- A round of a search that is not killed goes on with less to do, or ends it with an order
of all operations, or when none is left to be tried. -/
theorem Searching.round (hc : Complete entries) (hr : object.Respects)
    (h : Searching object entries computePartial s d done rest)
    (hne : remaining entries done ≠ []) :
    (∃ s' d' done' rest', Search.round object computePartial false s = some (.inl s') ∧
      SearchMove object entries d d' ∧ Searching object entries computePartial s' d' done' rest') ∨
    (Search.round object computePartial false s = some (.inr ⟨false,s.longest⟩) ∧
      Settled object entries computePartial s.longest ([],object.init)) := by
  obtain ⟨a,e,post,rfl⟩ := h.mirrors.stands hc hne
  cases hk : e.kind with
  | callEntry =>
    obtain ⟨s',d',done',rest',hround,hmove,hm',hlong⟩ :=
      h.mirrors.call object computePartial hc hk
    have htop : d.frames.head?.map Prod.snd ≠ some [] := by
      obtain ⟨todo,fs,hframes,_⟩ := h.mirrors.pass hk
      rw [hframes]
      simp
    refine .inl ⟨s',d',done',rest',hround,hmove,hm',?_,hlong ▸ h.recorded⟩
    rw [hlong]
    exact h.mirrors.explores hc hr hne h.explored (fun _ ht => absurd ht htop) hmove
  | returnEntry =>
    by_cases hnil : s.calls = []
    · obtain ⟨hround,rfl,hframes⟩ := h.mirrors.exhausted object computePartial hk hnil
      refine .inr ⟨hround,?_⟩
      have he := h.explored
      have hd : d = ⟨[(([],s.state),[])],d.seen⟩ := by rw [← hframes]
      rw [hd] at he
      have hroot : s.state = object.init := (Prod.mk.inj he.stacked.single).2
      rw [hroot] at he hframes
      exact he.settles (fun hall => h.mirrors.settles hc hne (fun _ _ => by simp) hframes hall)
    · obtain ⟨s',d',done',rest',hround,hmove,hm',hlong⟩ :=
        h.mirrors.back object computePartial hc hk hnil
      refine .inl ⟨s',d',done',rest',hround,hmove,hm',?_,?_⟩
      · cases computePartial with
        | false =>
          rw [if_neg (by simp)] at hlong
          rw [hlong]
          exact h.mirrors.explores hc hr hne h.explored (fun hp => by cases hp) hmove
        | true =>
          rw [if_pos rfl] at hlong
          exact h.mirrors.explores hc hr hne (h.explored.mono (fun x hx => hx.mono hlong.grows))
            (fun _ _ => hlong.reached) hmove
      · intro k q hq
        cases computePartial with
        | false =>
          rw [if_neg (by simp)] at hlong
          rw [hlong] at hq
          exact h.recorded k q hq
        | true =>
          rw [if_pos rfl] at hlong
          rcases hlong.origin k q hq with ⟨rfl,hin⟩ | hold
          · exact ⟨hin,h.begins hc⟩
          · exact h.recorded k q hold

theorem Searching.finds (hc : Complete entries)
    (h : Searching object entries computePartial s d done rest)
    (hnil : remaining entries done = []) :
    Linearizes (entryStep object entries) (entries.map Entry.mark) object.init done := by
  obtain ⟨t,hb⟩ := h.begins hc
  refine (linearizes_iff hc.formed).mpr ⟨t,hb,?_⟩
  rw [← remaining_marks,hnil]
  rfl

theorem Searching.less (h : Searching object entries computePartial s d done rest)
    (hmove : SearchMove object entries d d') :
    searchWork entries d'.frames < searchWork entries d.frames := by
  refine DepthFirst.move_work search_graded (fun x => ?_) h.explored hmove
  rw [← List.length_map (f := Entry.mark)]
  exact candidates_length x

/-- A search with enough rounds left ends with a verdict that is right. -/
theorem Searching.rounds (hc : Complete entries) (hr : object.Respects) {kill : Nat → Bool}
    {fuel k : Nat} (h : Searching object entries computePartial s d done rest)
    (hf : searchWork entries d.frames ≤ fuel) :
    ∃ v, Search.rounds object computePartial kill fuel k s = some v ∧
      Means object entries computePartial kill v := by
  induction fuel generalizing k s d done rest with
  | zero =>
    obtain ⟨fs,_,hframes⟩ := h.mirrors.stack
    rw [hframes,searchWork,DepthFirst.work] at hf
    simp at hf
  | succ fuel ih =>
    by_cases hnil : remaining entries done = []
    · refine ⟨_,by rw [Search.rounds,h.mirrors.finished hc hnil],?_⟩
      rw [List.map_const',h.mirrors.longest]
      exact .order (h.finds hc hnil)
    · cases hk : kill k with
      | true => exact ⟨_,by rw [Search.rounds,hk,h.mirrors.killed hnil],.killed hk⟩
      | false =>
        rcases h.round hc hr hnil with ⟨s',d',done',rest',hround,hmove,h'⟩ | ⟨hround,hset⟩
        · have hlt := h.less hmove
          rw [Search.rounds,hk,hround]
          exact ih h' (by omega)
        · exact ⟨_,by rw [Search.rounds,hk,hround],.noOrder hset h.recorded h.mirrors.longest⟩

/-- The rounds that a search of the history can take. -/
def roundsOf (entries : List (Entry ι ο)) : Nat :=
  entries.length * (entries.length + 2) ^ entries.length + 1

theorem start_work (object : Object ι ο σ) (entries : List (Entry ι ο)) :
    searchWork entries [(([],object.init),candidates (entries.map Entry.mark) ([],object.init))] ≤
      roundsOf entries := by
  have hlen := candidates_length (h := entries.map Entry.mark) (([],object.init) : List Int × σ)
  rw [List.length_map] at hlen
  simp only [searchWork,DepthFirst.work,List.map_cons,List.map_nil,List.sum_cons,List.sum_nil,left,
    without_nil,List.length_map,roundsOf]
  exact Nat.add_le_add_right (Nat.mul_le_mul_right _ hlen) 1

theorem checkSingle_means (hc : Complete entries) (hr : object.Respects) (computePartial : Bool)
    (kill : Nat → Bool) {fuel : Nat} (hf : roundsOf entries ≤ fuel) :
    ∃ v, checkSingle object entries computePartial kill fuel = some v ∧
      Means object entries computePartial kill v :=
  (start_searching object entries).rounds hc hr ((start_work object entries).trans hf)

theorem settled_refutes {longest : List (Option (List Int))}
    (h : Settled object entries computePartial longest ([],object.init)) :
    ¬ LinearizableHistory object entries := by
  have hdead := h.1
  rwa [Dead,without_nil] at hdead

/-- `checkSingle` returns, without a panic, after a number of rounds that depends on the
length of the history only. It says true only of a linearizable history, and false, unless it
was killed, only of one that is not. -/
theorem checkSingle_decides (object : Object ι ο σ) (hr : object.Respects)
    {entries : List (Entry ι ο)} (hc : Complete entries) (computePartial : Bool)
    (kill : Nat → Bool) {fuel : Nat} (hf : roundsOf entries ≤ fuel) :
    ∃ v, checkSingle object entries computePartial kill fuel = some v ∧
      (v.ok = true → LinearizableHistory object entries) ∧
      (v.ok = false → (∃ k, kill k = true) ∨ ¬ LinearizableHistory object entries) := by
  obtain ⟨v,hv,hmeans⟩ := checkSingle_means hc hr computePartial kill hf
  refine ⟨v,hv,?_⟩
  cases hmeans with
  | order hseq => exact ⟨fun _ => ⟨_,hseq⟩,fun h => by cases h⟩
  | noOrder hset _ _ => exact ⟨fun h => (by cases h),fun _ => .inr (settled_refutes hset)⟩
  | killed hk => exact ⟨fun h => (by cases h),fun _ => .inl ⟨_,hk⟩⟩

/-- A cell that `some b` writes and `none` reads. -/
def register : Object (Option Bool) Bool Bool where
  init := false
  step s i o := match i with
    | some b => (true,b)
    | none => (o = s,s)
  equal s t := s = t

theorem register_respects : register.Respects := by
  intro s t he i o hok
  obtain rfl : s = t := by simpa [register] using he
  exact ⟨hok,by simp [register]⟩

/-- A write, and a read of its value that is over before the write is. -/
def writeRead : List (Entry (Option Bool) Bool) :=
  [⟨.callEntry,.input (some true),0,0,0⟩,⟨.callEntry,.input none,1,1,1⟩,
    ⟨.returnEntry,.output true,1,2,1⟩,⟨.returnEntry,.output true,0,3,0⟩]

theorem writeRead_complete : Complete writeRead where
  formed := ⟨by decide,by decide⟩
  numbered e he := by
    simp only [writeRead,List.mem_cons,List.not_mem_nil,or_false] at he
    rcases he with rfl | rfl | rfl | rfl
    · exact ⟨0,by simp [writeRead],rfl⟩
    · exact ⟨1,by simp [writeRead],rfl⟩
    · exact ⟨1,by simp [writeRead],rfl⟩
    · exact ⟨0,by simp [writeRead],rfl⟩
  input := by simp [writeRead]
  output := by simp [writeRead]

theorem checkSingle_decides_writeRead : ∃ v,
    checkSingle register writeRead true (fun _ => false) (roundsOf writeRead) = some v ∧
      (v.ok = true → LinearizableHistory register writeRead) ∧
      (v.ok = false → (∃ _ : Nat, false = true) ∨ ¬ LinearizableHistory register writeRead) :=
  checkSingle_decides register register_respects writeRead_complete true (fun _ => false)
    (Nat.le_refl _)

/-- The ids are all the numbers below the number of operations. -/
theorem mem_ops_of_lt (hc : Complete entries) {k : Nat} (hk : k < entries.length / 2) :
    (k : Int) ∈ ops (entries.map Entry.mark) := by
  have hlen := hc.formed.length
  rw [List.length_map] at hlen
  have hsub : ops (entries.map Entry.mark) ⊆
      (List.range (entries.length / 2)).map (fun k : Nat => (k : Int)) := by
    intro i hi
    obtain ⟨e,he,hmark⟩ := List.mem_map.mp (Linearization.mem_ops.mp hi)
    obtain ⟨j,hj,hid⟩ := hc.numbered e he
    have hi' : i = j := by rw [← hid,← mark_op,hmark,Mark.op_call]
    rw [hi']
    exact List.mem_map_of_mem (List.mem_range.mpr hj)
  have hperm := (hc.formed.ops_nodup.subperm hsub).perm_of_length_le (by simp; omega)
  exact hperm.mem_iff.mpr (List.mem_map_of_mem (List.mem_range.mpr hk))

theorem exact_of_order (hc : Complete entries) {seq : List Int}
    (hseq : Linearizes (entryStep object entries) (entries.map Entry.mark) object.init seq) :
    Exact object entries (List.replicate (entries.length / 2) (some seq)) := by
  obtain ⟨t,hb,_⟩ := (linearizes_iff hc.formed).mp hseq
  refine ⟨List.length_replicate,fun k q hq => ?_,fun k hk q hq _ => ⟨seq,?_,?_⟩⟩
  · obtain ⟨hk,he⟩ := List.getElem?_eq_some_iff.mp hq
    rw [List.length_replicate] at hk
    obtain rfl : seq = q := by simpa using he
    exact ⟨hseq.perm.mem_iff.mpr (mem_ops_of_lt hc hk),t,hb⟩
  · exact List.getElem?_replicate_of_lt hk
  · obtain ⟨u,hq⟩ := hq
    refine List.Nodup.length_le_of_subset hq.nodup (fun a ha => ?_)
    exact hseq.perm.mem_iff.mpr (Linearization.mem_ops.mpr (hq.inside a ha))

theorem exact_of_settled {longest : List (Option (List Int))}
    (hset : Settled object entries true longest ([],object.init))
    (hrec : ∀ (k : Nat) q, longest[k]? = some (some q) →
      (k : Int) ∈ q ∧ PartialLinearization object entries q)
    (hlen : longest.length = entries.length / 2) : Exact object entries longest := by
  refine ⟨hlen,hrec,fun k hk q hq hin => ?_⟩
  obtain ⟨t,hb⟩ := hq
  have hbound : q.length ≤ best longest k := by
    have := hset.2 rfl q t (by rw [without_nil]; exact hb) k (by simpa using hin)
    simpa using this
  have hpos : 0 < q.length := List.length_pos_of_mem hin
  rw [best,Int.toNat_natCast] at hbound
  have hk' : k < longest.length := by rw [hlen]; exact hk
  rw [List.getElem?_eq_getElem hk'] at hbound ⊢
  cases hp : longest[k] with
  | none =>
    have hzero : q = [] := by simpa [hp] using hbound
    simp [hzero] at hpos
  | some p => exact ⟨p,rfl,by simpa [hp] using hbound⟩

end MapReduce.Proofs
