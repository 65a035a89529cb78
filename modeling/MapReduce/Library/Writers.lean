import Mathlib
import MapReduce.Library.Store

namespace Files

variable {β : Type} {zero : β} {text cur data : List β} {offs offs' : Nat → Prop}

theorem overwrite_length (old : List β) (off : Nat) (hd : data ≠ []) :
    (overwrite zero old off data).length = max old.length (off + data.length) := by
  unfold overwrite
  rw [if_neg hd]
  simp only [List.length_append,List.length_take,List.length_replicate,List.length_drop]
  omega

theorem overwrite_before (old : List β) (hd : data ≠ []) (hi : i < off) (ho : i < old.length) :
    (overwrite zero old off data)[i]? = old[i]? := by
  unfold overwrite
  rw [if_neg hd,List.append_assoc,List.getElem?_append_left,List.getElem?_take_of_lt hi,
    List.getElem?_append_left ho]
  simp only [List.length_take,List.length_append,List.length_replicate]
  omega

theorem overwrite_within (old : List β) (hi : i < data.length) :
    (overwrite zero old off data)[off + i]? = data[i]? := by
  have hd : data ≠ [] := List.ne_nil_of_length_pos (Nat.lt_of_le_of_lt (Nat.zero_le i) hi)
  have hl : ((old ++ List.replicate (off - old.length) zero).take off).length = off := by
    simp only [List.length_take,List.length_append,List.length_replicate]
    omega
  unfold overwrite
  rw [if_neg hd,List.append_assoc,List.getElem?_append_right (by omega),hl,
    List.getElem?_append_left (by omega)]
  congr 1
  omega

/-- A file that several handles write the same text to: it is no longer than the text, and
where it differs some handle is still to come by. `offs` says where handles stand. -/
structure Covers (text cur : List β) (offs : Nat → Prop) : Prop where
  short : cur.length ≤ text.length
  agrees : ∀ i < text.length, cur[i]? = text[i]? ∨ ∃ o ≤ i, offs o

theorem Covers.mono (h : Covers text cur offs) (ho : ∀ o < text.length, offs o → offs' o) :
    Covers text cur offs' where
  short := h.short
  agrees i hi := (h.agrees i hi).imp_right fun ⟨o,hle,hoff⟩ => ⟨o,hle,ho o (by omega) hoff⟩

/-- Truncation by a handle that then stands at the start. -/
theorem covers_create (text : List β) (ho : offs 0) : Covers text [] offs where
  short := Nat.zero_le _
  agrees i _ := Or.inr ⟨0,Nat.zero_le i,ho⟩

/-- A handle writes the part of the text it stands before and moves behind it. A gap that
the write fills with zeros lies before the handle, so that another one comes by. -/
theorem Covers.write (h : Covers text cur offs) (ht : text = before ++ (data ++ after))
    (ho : ∀ o, offs o → o ≠ before.length → offs' o)
    (hn : offs' (before.length + data.length)) :
    Covers text (overwrite zero cur before.length data) offs' := by
  by_cases hd : data = []
  · subst hd
    simp only [List.length_nil,Nat.add_zero] at hn
    rw [overwrite,if_pos rfl]
    refine h.mono (fun o _ hoff => ?_)
    by_cases he : o = before.length
    · exact he ▸ hn
    · exact ho o hoff he
  have hlen : text.length = before.length + data.length + after.length := by
    simp [ht,Nat.add_assoc]
  refine ⟨?_,fun i hi => ?_⟩
  · rw [overwrite_length _ _ hd]
    have := h.short
    omega
  · rcases Nat.lt_or_ge i before.length with hlt | hge
    · rcases h.agrees i hi with heq | ⟨o,hle,hoff⟩
      · rw [List.getElem?_eq_getElem hi] at heq
        rw [overwrite_before cur hd hlt (List.getElem?_eq_some_iff.mp heq).1,heq,
          List.getElem?_eq_getElem hi]
        exact Or.inl rfl
      · exact Or.inr ⟨o,hle,ho o hoff (by omega)⟩
    · obtain ⟨k,rfl⟩ := Nat.exists_eq_add_of_le hge
      rcases Nat.lt_or_ge k data.length with hk | hk
      · rw [overwrite_within cur hk,ht,List.getElem?_append_right (by omega),
          List.getElem?_append_left (by omega),Nat.add_sub_cancel_left]
        exact Or.inl rfl
      · exact Or.inr ⟨_,by omega,hn⟩

/-- When no handle is left before the end, the file is the text. -/
theorem Covers.quiet (h : Covers text cur offs) (hq : ∀ o, ¬ offs o) : cur = text := by
  apply List.ext_getElem?
  intro i
  rcases Nat.lt_or_ge i text.length with hi | hi
  · rcases h.agrees i hi with heq | ⟨o,_,hoff⟩
    · exact heq
    · exact absurd hoff (hq o)
  · have := h.short
    rw [List.getElem?_eq_none hi,List.getElem?_eq_none (by omega)]

end Files
