import Mathlib

namespace DepthFirst

/-- A search with its frames, the top one first: each is a node and the candidates that
have not been tried from it. `seen` are the nodes that were gone into. -/
structure Search (ξ γ : Type) where
  frames : List (ξ × List γ)
  seen : List ξ

section
variable {ξ γ : Type} (cands : ξ → List γ) (next : ξ → γ → Option ξ) (same : ξ → ξ → Prop)

/-- One move: a candidate that leads nowhere or to a node like one that was seen is dropped,
another one is gone into, and a node without candidates is left. -/
inductive Move : Search ξ γ → Search ξ γ → Prop
  | fail : next x c = none → Move ⟨(x,c :: todo) :: fs,seen⟩ ⟨(x,todo) :: fs,seen⟩
  | skip : next x c = some y → (∃ z ∈ seen, same y z) →
      Move ⟨(x,c :: todo) :: fs,seen⟩ ⟨(x,todo) :: fs,seen⟩
  | visit : next x c = some y → (∀ z ∈ seen, ¬ same y z) →
      Move ⟨(x,c :: todo) :: fs,seen⟩ ⟨(y,cands y) :: (x,todo) :: fs,y :: seen⟩
  | back : Move ⟨(x,[]) :: f :: fs,seen⟩ ⟨f :: fs,seen⟩

/-- Each frame was entered from the one below it. -/
inductive Stacked (root : ξ) : List (ξ × List γ) → Prop
  | root : Stacked root [(root,todo)]
  | push : c ∈ cands x → next x c = some y → Stacked root ((x,todo) :: fs) →
      Stacked root ((y,todo') :: (x,todo) :: fs)

/-- Every candidate of the node is still to be tried, leads to the node above it, or leads to
a settled one. -/
def Tried (settled : ξ → Prop) (above : Option ξ) (f : ξ × List γ) : Prop :=
  ∀ c ∈ cands f.1, ∀ y, next f.1 c = some y → c ∈ f.2 ∨ above = some y ∨ settled y

/-- The frames, with the node above them. -/
def AllTried (settled : ξ → Prop) : Option ξ → List (ξ × List γ) → Prop
  | _,[] => True
  | above,f :: fs => Tried cands next settled above f ∧ AllTried settled (some f.1) fs

/-- What a search has found out: nodes that it left are settled. -/
structure Explored (settled : ξ → Prop) (root : ξ) (s : Search ξ γ) : Prop where
  stacked : Stacked cands next root s.frames
  inside : ∀ f ∈ s.frames, f.2 ⊆ cands f.1
  tried : AllTried cands next settled none s.frames
  seen : ∀ z ∈ s.seen, settled z ∨ z ∈ s.frames.map Prod.fst

end

/-- A graph whose steps go down, by nodes of which one is as good as another. -/
structure Graded {ξ γ : Type} (cands : ξ → List γ) (next : ξ → γ → Option ξ)
    (same : ξ → ξ → Prop) (height : ξ → Nat) : Prop where
  down : c ∈ cands x → next x c = some y → height y < height x
  level : same y z → height y = height z

variable {ξ γ : Type} {cands : ξ → List γ} {next : ξ → γ → Option ξ} {same : ξ → ξ → Prop}
  {height : ξ → Nat} {settled : ξ → Prop} {root : ξ} {s t : Search ξ γ}

theorem AllTried.mono {settled' : ξ → Prop} (h : ∀ x, settled x → settled' x) {above : Option ξ}
    {fs : List (ξ × List γ)} (ht : AllTried cands next settled above fs) :
    AllTried cands next settled' above fs := by
  induction fs generalizing above with
  | nil => trivial
  | cons f fs ih =>
    refine ⟨fun c hc y hy => ?_,ih ht.2⟩
    rcases ht.1 c hc y hy with hin | hup | hset
    · exact .inl hin
    · exact .inr (.inl hup)
    · exact .inr (.inr (h y hset))

theorem Explored.mono {settled' : ξ → Prop} (h : ∀ x, settled x → settled' x)
    (he : Explored cands next settled root s) : Explored cands next settled' root s where
  stacked := he.stacked
  inside := he.inside
  tried := he.tried.mono h
  seen z hz := (he.seen z hz).imp_left (h z)

/-- The top of the stack is its lowest node. -/
theorem Stacked.lowest (hg : Graded cands next same height) {f : ξ × List γ}
    {fs : List (ξ × List γ)} (h : Stacked cands next root (f :: fs)) :
    ∀ g ∈ f :: fs, height f.1 ≤ height g.1 := by
  generalize hfs : f :: fs = all at h
  induction h generalizing f fs with
  | root =>
    cases hfs
    intro g hg'
    rw [List.mem_singleton.mp hg']
  | push hc hy _ ih =>
    cases hfs
    intro g hg'
    rcases List.mem_cons.mp hg' with rfl | hin
    · exact Nat.le_refl _
    · exact (hg.down hc hy).le.trans (ih rfl g hin)

theorem Stacked.single {x : ξ} {todo : List γ} (h : Stacked cands next root [(x,todo)]) :
    x = root := by
  cases h
  rfl

theorem Stacked.retry {f : ξ × List γ} {fs : List (ξ × List γ)} {todo : List γ}
    (h : Stacked cands next root (f :: fs)) : Stacked cands next root ((f.1,todo) :: fs) := by
  cases h with
  | root => exact .root
  | push hc hy hs => exact .push hc hy hs

/-- Leaving a node settles what is above the frame below it. -/
theorem AllTried.settle {x : ξ} {fs : List (ξ × List γ)} (hx : settled x)
    (h : AllTried cands next settled (some x) fs) : AllTried cands next settled none fs := by
  cases fs with
  | nil => trivial
  | cons f fs =>
    refine ⟨fun c hc y hy => ?_,h.2⟩
    rcases h.1 c hc y hy with hin | hup | hset
    · exact .inl hin
    · cases hup
      exact .inr (.inr hx)
    · exact .inr (.inr hset)

/-- A candidate that leads to nothing new is done with. -/
theorem Explored.drop {x : ξ} {c : γ} {todo : List γ} {fs : List (ξ × List γ)} {seen : List ξ}
    (h : Explored cands next settled root ⟨(x,c :: todo) :: fs,seen⟩)
    (hset : ∀ y, next x c = some y → settled y) :
    Explored cands next settled root ⟨(x,todo) :: fs,seen⟩ where
  stacked := h.stacked.retry
  inside g hg := by
    rcases List.mem_cons.mp hg with rfl | hg
    · exact fun d hd => h.inside (x,c :: todo) List.mem_cons_self (List.mem_cons_of_mem _ hd)
    · exact h.inside g (List.mem_cons_of_mem _ hg)
  tried := by
    refine ⟨fun d hd y hy => ?_,h.tried.2⟩
    rcases h.tried.1 d hd y hy with hin | hup | hy'
    · rcases List.mem_cons.mp hin with rfl | hin
      · exact .inr (.inr (hset y hy))
      · exact .inl hin
    · exact .inr (.inl hup)
    · exact .inr (.inr hy')
  seen z hz := (h.seen z hz).imp_right (by simp)

/-- A node whose candidates are all tried can be settled, if its successors being so is
all that this takes. -/
theorem Explored.settles {x : ξ} {fs : List (ξ × List γ)} {seen : List ξ}
    (h : Explored cands next settled root ⟨(x,[]) :: fs,seen⟩)
    (hs : (∀ c ∈ cands x, ∀ y, next x c = some y → settled y) → settled x) : settled x := by
  refine hs (fun c hc y hy => ?_)
  rcases h.tried.1 c hc y hy with hin | hup | hset
  · cases hin
  · cases hup
  · exact hset

/-- A move keeps what the search has found out. A node can be settled once its successors
are, and so can one like a settled node. -/
theorem Explored.move (hg : Graded cands next same height)
    (hsame : ∀ y z, same y z → settled z → settled y)
    (hsettle : ∀ x fs, s.frames = (x,[]) :: fs →
      (∀ c ∈ cands x, ∀ y, next x c = some y → settled y) → settled x)
    (h : Explored cands next settled root s) (hm : Move cands next same s t) :
    Explored cands next settled root t := by
  cases hm with
  | fail hn => exact h.drop (fun y hy => by rw [hn] at hy; cases hy)
  | @skip x c y seen todo fs hn hz =>
    refine h.drop (fun y' hy => ?_)
    rw [hn] at hy
    cases hy
    obtain ⟨z,hz,hyz⟩ := hz
    rcases h.seen z hz with hset | hon
    · exact hsame y z hyz hset
    · -- a node on the stack is too high to look like a candidate of the top
      obtain ⟨g,hg',rfl⟩ := List.mem_map.mp hon
      have hlow := h.stacked.lowest hg g hg'
      have hin := h.inside (x,c :: todo) List.mem_cons_self List.mem_cons_self
      have hdown := hg.down hin hn
      have hlevel := hg.level hyz
      omega
  | @visit x c y seen todo fs hn hz =>
    have hin := h.inside (x,c :: todo) List.mem_cons_self List.mem_cons_self
    refine ⟨.push hin hn h.stacked.retry,?_,⟨fun d hd _ _ => .inl hd,?_,h.tried.2⟩,?_⟩
    · intro g hg'
      rcases List.mem_cons.mp hg' with rfl | hg'
      · exact List.Subset.refl _
      rcases List.mem_cons.mp hg' with rfl | hg'
      · exact fun d hd => h.inside (x,c :: todo) List.mem_cons_self (List.mem_cons_of_mem _ hd)
      · exact h.inside g (List.mem_cons_of_mem _ hg')
    · intro d hd y' hy
      rcases h.tried.1 d hd y' hy with hin | hup | hset
      · rcases List.mem_cons.mp hin with rfl | hin
        · rw [hn] at hy
          exact .inr (.inl hy)
        · exact .inl hin
      · cases hup
      · exact .inr (.inr hset)
    · intro z hz'
      rcases List.mem_cons.mp hz' with rfl | hz'
      · exact .inr List.mem_cons_self
      · exact (h.seen z hz').imp_right (List.mem_cons_of_mem y)
  | @back x f fs seen =>
    have hx := h.settles (hsettle x (f :: fs) rfl)
    refine ⟨?_,fun g hg' => h.inside g (List.mem_cons_of_mem _ hg'),h.tried.2.settle hx,?_⟩
    · cases h.stacked with
      | push _ _ hs => exact hs
    · intro z hz
      rcases h.seen z hz with hset | hon
      · exact .inl hset
      · rcases List.mem_cons.mp hon with rfl | hon
        · exact .inl hx
        · exact .inr hon

theorem start_explored (cands : ξ → List γ) (next : ξ → γ → Option ξ) (settled : ξ → Prop)
    (root : ξ) : Explored cands next settled root ⟨[(root,cands root)],[]⟩ where
  stacked := .root
  inside f hf := by
    rw [List.mem_singleton.mp hf]
    exact List.Subset.refl _
  tried := ⟨fun c hc _ _ => .inl hc,trivial⟩
  seen z hz := by cases hz

/-- What is left to do, if no node has more than `width` candidates. -/
def work (height : ξ → Nat) (width : Nat) (frames : List (ξ × List γ)) : Nat :=
  (frames.map (fun f => f.2.length * (width + 2) ^ height f.1 + 1)).sum

theorem move_work (hg : Graded cands next same height) {width : Nat}
    (hw : ∀ x, (cands x).length ≤ width) (h : Explored cands next settled root s)
    (hm : Move cands next same s t) :
    work height width t.frames < work height width s.frames := by
  have hpos : ∀ n, 0 < (width + 2) ^ n := fun n => Nat.pos_of_neZero _
  cases hm with
  | @fail x c todo fs seen _ =>
    simp only [work,List.map_cons,List.sum_cons,List.length_cons,Nat.succ_mul]
    have := hpos (height x)
    omega
  | @skip x c y seen todo fs _ _ =>
    simp only [work,List.map_cons,List.sum_cons,List.length_cons,Nat.succ_mul]
    have := hpos (height x)
    omega
  | @visit x c y seen todo fs hn _ =>
    -- all of the new node costs less than the one candidate that it was
    have hin := h.inside (x,c :: todo) List.mem_cons_self List.mem_cons_self
    have hdown := hg.down hin hn
    have hle : (width + 2) ^ (height y + 1) ≤ (width + 2) ^ height x :=
      Nat.pow_le_pow_right (by omega) hdown
    have hmul : (cands y).length * (width + 2) ^ height y ≤ width * (width + 2) ^ height y :=
      Nat.mul_le_mul_right _ (hw y)
    have hexp : (width + 2) ^ (height y + 1) =
        width * (width + 2) ^ height y + 2 * (width + 2) ^ height y := by ring
    have := hpos (height y)
    simp only [work,List.map_cons,List.sum_cons,List.length_cons,Nat.succ_mul]
    omega
  | back =>
    simp only [work,List.map_cons,List.sum_cons]
    omega

end DepthFirst
