import Mathlib

namespace Files

section
variable {β : Type}

/-- The contents after `data` is written at `off`: a gap is filled with `zero`, and
an empty write changes nothing. -/
def overwrite (zero : β) (old : List β) (off : Nat) (data : List β) : List β :=
  if data = [] then old else
    (old ++ List.replicate (off - old.length) zero).take off ++ data ++
      old.drop (off + data.length)

variable {zero : β} {old data : List β} {off : Nat}

theorem overwrite_end (old data : List β) : overwrite zero old old.length data = old ++ data := by
  unfold overwrite
  split
  · rename_i he
    simp [he]
  · simp

end

/-- A directory tree as a finite map from path names to contents. -/
structure Store (ν β : Type) where
  entries : List (ν × List β)
  nodup : (entries.map Prod.fst).Nodup

namespace Store
variable {ν β : Type} [DecidableEq ν]

def empty : Store ν β := ⟨[],List.nodup_nil⟩

def names (s : Store ν β) : List ν := s.entries.map Prod.fst

def read (s : Store ν β) (name : ν) : Option (List β) := s.entries.lookup name

def putList (name : ν) (data : List β) : List (ν × List β) → List (ν × List β)
  | [] => [(name,data)]
  | (n,d) :: rest => if n = name then (n,data) :: rest else (n,d) :: putList name data rest

theorem putList_names (name : ν) (data : List β) (l : List (ν × List β)) (n : ν) :
    n ∈ (putList name data l).map Prod.fst ↔ n = name ∨ n ∈ l.map Prod.fst := by
  induction l with
  | nil => simp [putList]
  | cons e l ih =>
    obtain ⟨m,d⟩ := e
    by_cases hm : m = name
    · simp only [putList,hm,↓reduceIte,List.map_cons,List.mem_cons]
      tauto
    · simp only [putList,hm,↓reduceIte,List.map_cons,List.mem_cons,ih]
      tauto

theorem putList_nodup (name : ν) (data : List β) (l : List (ν × List β))
    (h : (l.map Prod.fst).Nodup) : ((putList name data l).map Prod.fst).Nodup := by
  induction l with
  | nil => simp [putList]
  | cons e l ih =>
    obtain ⟨m,d⟩ := e
    obtain ⟨hn,h⟩ := List.nodup_cons.mp h
    by_cases hm : m = name
    · simp only [putList,hm,↓reduceIte,List.map_cons]
      exact List.nodup_cons.mpr ⟨hm ▸ hn,h⟩
    · simp only [putList,hm,↓reduceIte,List.map_cons]
      refine List.nodup_cons.mpr ⟨?_,ih h⟩
      intro hmem
      rcases (putList_names name data l m).mp hmem with he | hin
      · exact hm he
      · exact hn hin

def put (s : Store ν β) (name : ν) (data : List β) : Store ν β where
  entries := putList name data s.entries
  nodup := putList_nodup name data s.entries s.nodup

/-- Open for writing: the file is made, or cut to length zero. -/
def create (s : Store ν β) (name : ν) : Store ν β := s.put name []

/-- A write through a handle that stands at `off`. -/
def write (s : Store ν β) (zero : β) (name : ν) (off : Nat) (data : List β) : Store ν β :=
  s.put name (overwrite zero ((s.read name).getD []) off data)

theorem read_put (s : Store ν β) (name : ν) (data : List β) (n : ν) :
    (s.put name data).read n = if n = name then some data else s.read n := by
  unfold read put
  dsimp only
  induction s.entries with
  | nil =>
    by_cases hn : n = name
    · simp [putList,hn]
    · have hb : (n == name) = false := by simp [hn]
      simp [putList,hn,List.lookup_cons,hb]
  | cons e l ih =>
    obtain ⟨m,d⟩ := e
    by_cases hm : m = name
    · by_cases hn : n = name
      · simp [putList,hm,hn]
      · have hb : (n == name) = false := by simp [hn]
        simp [putList,hm,hn,List.lookup_cons,hb]
    · by_cases hn : n = m
      · simp [putList,hm,hn]
      · have hb : (n == m) = false := by simp [hn]
        simp only [putList,hm,↓reduceIte,List.lookup_cons,hb,ih]

theorem read_create (s : Store ν β) (name n : ν) :
    (s.create name).read n = if n = name then some [] else s.read n :=
  read_put s name [] n

theorem read_write (s : Store ν β) (zero : β) (name n : ν) (off : Nat) (data : List β) :
    (s.write zero name off data).read n =
      if n = name then some (overwrite zero ((s.read name).getD []) off data) else s.read n :=
  read_put s name _ n

theorem mem_names (s : Store ν β) (n : ν) : n ∈ s.names ↔ (s.read n).isSome = true := by
  unfold names read
  induction s.entries with
  | nil => simp
  | cons e l ih =>
    obtain ⟨m,d⟩ := e
    by_cases hn : n = m
    · simp [hn]
    · have hb : (n == m) = false := by simp [hn]
      simp only [List.map_cons,List.mem_cons,hn,false_or,List.lookup_cons,hb,ih]

end Store

end Files
