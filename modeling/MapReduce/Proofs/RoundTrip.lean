import Mathlib
import MapReduce.Proofs.DataPath

namespace MapReduce
open Files

/-- The bytes are the records `kvs`, one after another, and then nothing. -/
inductive CompleteStream (json : Json) : Bytes → List KeyValue → Prop
  | nil (h : json.decode s = .eof) : CompleteStream json s []
  | cons (h : json.decode s = .value kv rest) (tail : CompleteStream json rest kvs) :
      CompleteStream json s (kv :: kvs)

/-- After some records comes one that is malformed or cut off. -/
inductive DamagedStream (json : Json) : Bytes → Prop
  | here (h : json.decode s = .failed) : DamagedStream json s
  | later (h : json.decode s = .value kv rest) (tail : DamagedStream json rest) :
      DamagedStream json s

namespace Proofs

theorem repair_allValid_iff (kvs : List KeyValue) : kvs.map KeyValue.repair = kvs ↔ AllValid kvs := by
  refine ⟨?_,repair_allValid⟩
  intro h kv hkv
  obtain ⟨i,hi⟩ := List.mem_iff_getElem?.mp hkv
  have he := congrArg (fun l => l[i]?) h
  simp only [List.getElem?_map,hi,Option.map_some,Option.some.injEq] at he
  have hk := congrArg KeyValue.key he
  have hv := congrArg KeyValue.value he
  exact ⟨Utf8.repair_fixed.mp hk,Utf8.repair_fixed.mp hv⟩

/-- A list of pairs survives the way through a file exactly if all its text is UTF-8. -/
theorem round_trip_iff (json : Json) (fs : FileSystem) (name : String) (kvs : List KeyValue) :
    ∃ s, (writeFile fs name (kvs.map json.encode)).read name = some s ∧
      (decodeFile json s = kvs ↔ AllValid kvs) := by
  refine ⟨_,by rw [writeFile_read,if_pos rfl],?_⟩
  rw [← List.flatMap_def,decodeFile_encode,repair_allValid_iff]

/-- Two keys that are not UTF-8 come back as one. -/
theorem keys_merged_by_codec :
    let kvs : List KeyValue := [⟨[0xFE],ascii "1"⟩,⟨[0xFF],ascii "1"⟩]
    decodeFile encodingJson (kvs.flatMap encodingJson.encode) =
        [⟨[0xEF,0xBF,0xBD],ascii "1"⟩,⟨[0xEF,0xBF,0xBD],ascii "1"⟩] ∧
      decodeFile encodingJson (kvs.flatMap encodingJson.encode) ≠ kvs := by
  decide +kernel

section
variable {json : Json} {go : Platform} {fs : FileSystem}

theorem complete_or_damaged (json : Json) (s : Bytes) :
    (∃ kvs, CompleteStream json s kvs) ∨ DamagedStream json s := by
  induction hn : s.length using Nat.strong_induction_on generalizing s with
  | _ n ih =>
    subst hn
    cases hd : json.decode s with
    | eof => exact Or.inl ⟨[],.nil hd⟩
    | failed => exact Or.inr (.here hd)
    | value kv rest =>
      rcases ih rest.length (json.decode_shorter s kv rest hd) rest rfl with ⟨kvs,h⟩ | h
      · exact Or.inl ⟨kv :: kvs,.cons hd h⟩
      · exact Or.inr (.later hd h)

theorem complete_not_damaged (h : CompleteStream json s kvs) : ¬ DamagedStream json s := by
  induction h with
  | nil he =>
    intro hd
    cases hd with
    | here h | later h _ => simp [he] at h
  | cons he _ ih =>
    intro hd
    cases hd with
    | here h => simp [he] at h
    | later h tail =>
      rw [he] at h
      cases h
      exact ih tail

/-- The loop gets to the end of a complete stream. -/
theorem complete_decoded (h : CompleteStream json s kvs) (hl : s.length ≤ steps) :
    decodeLoop json steps s = kvs := by
  induction h generalizing steps with
  | nil he =>
    cases steps with
    | zero => rfl
    | succ steps => simp only [decodeLoop,he]
  | cons he _ ih =>
    rename_i s kv rest kvs _
    have hs := json.decode_shorter s kv rest he
    cases steps with
    | zero => omega
    | succ steps =>
      have hle : rest.length ≤ steps := by omega
      simp only [decodeLoop,he,ih hle]

end

/-- A reduce task that gets to its report has read every record of its files exactly if
none of them is damaged: a damaged one does not keep it from the report. -/
theorem reported_reads_complete_iff (go : Platform) (result : WorkerTaskRequestReply)
    (fs : FileSystem) :
    (∀ sort reducef fs', reducerTask go sort reducef result fs = .ok fs' →
      ∀ name ∈ glob fs (globPattern result.partition), ∃ s kvs, fs.read name = some s ∧
        CompleteStream go.json s kvs ∧ decodeFile go.json s = kvs) ↔
    ∀ name ∈ glob fs (globPattern result.partition), ∀ s, fs.read name = some s →
      ¬ DamagedStream go.json s := by
  constructor
  · intro h name hname s hs
    have hr := reducerTask_spec go keySort (fun _ _ => []) result fs
    obtain ⟨s',kvs,hs',hc,_⟩ := h keySort (fun _ _ => []) _ hr name hname
    rw [hs] at hs'
    cases hs'
    exact complete_not_damaged hc
  · intro h sort reducef fs' _ name hname
    obtain ⟨s,hs⟩ := Option.isSome_iff_exists.mp ((Store.mem_names fs name).mp (glob_names hname))
    rcases complete_or_damaged go.json s with ⟨kvs,hc⟩ | hd
    · exact ⟨s,kvs,hs,hc,complete_decoded hc (Nat.le_refl _)⟩
    · exact absurd hd (h name hname s hs)

/-- A file whose second record is malformed. -/
def damagedFile : Bytes :=
  encodingJson.encode ⟨ascii "a",ascii "1"⟩ ++ ascii "x" ++ encodingJson.encode ⟨ascii "b",ascii "1"⟩

/-- The records from the malformed one on are missing in the output of a reduce task that
gets to its report. -/
theorem damaged_read_reported :
    let fs := Store.empty.put (intermediateName (taskName 0) 0) damagedFile
    (reducerTask goPlatform keySort countReducef (reduceGrant 0) fs).toOption.bind
        (·.read (outputName 0)) = some (ascii "a 1\n") ∧
      glob fs (globPattern 0) = [intermediateName (taskName 0) 0] ∧
      DamagedStream goPlatform.json damagedFile := by
  refine ⟨by decide +kernel,by decide +kernel,?_⟩
  exact .later rfl (.here rfl)

end Proofs

end MapReduce
