import Fettle.Proofs.Text.Words
import Fettle.Text.Ends

/-!
# Trimmed texts

Blanks around a text make no difference to its trimmed form (`trim_enclosed`), from which nothing
more is dropped (`trim_trim`).  The case of letters does not matter, so a text that differs only in
case from a trimmed one is trimmed (`trim_eq_self_of_asciiLower_eq`).
-/

namespace Fettle.Text

variable {s : List Char}

theorem trimStart_eq_self (hs : ∀ c, s.head? = some c → isBlank c = false) :
  trimStart s = s
  := by
  cases s with
  | nil => rfl
  | cons c s => rw [trimStart, List.dropWhile_cons_of_neg (by simp [hs c rfl])]

theorem trim_of_nonblank (hs : ∀ c ∈ s, isBlank c = false) :
  trim s = s
  := by
  have hfront : trimStart s = s :=
    trimStart_eq_self fun c hc => hs c (List.mem_of_mem_head? hc)
  have hback : trimStart s.reverse = s.reverse := by
    apply trimStart_eq_self
    intro c hc
    apply hs c (List.mem_reverse.mp (List.mem_of_mem_head? hc))
  rw [trim, hfront, trimEnd, ← trimStart, hback, List.reverse_reverse]

theorem trim_trim (s : List Char) :
  trim (trim s) = trim s
  := by
  have hfront : trimStart (trim s) = trim s := trimStart_eq_self fun _ => isBlank_of_head?_trim
  calc trim (trim s)
    _ = trimEnd (trim s) := congrArg trimEnd hfront
    _ = trim s := trimEnd_trimEnd (trimStart s)

theorem trim_sublist (s : List Char) :
  (trim s).Sublist s
  := by
  obtain ⟨b, hs, -⟩ := exists_trimEnd_append (trimStart s)
  have hback : trim s <+: trimStart s := ⟨b, hs.symm⟩
  apply hback.sublist.trans (List.dropWhile_sublist isBlank)

/-- Blanks around a text make no difference. -/
theorem trim_enclosed {front back : List Char} (hfront : ∀ c ∈ front, isBlank c = true)
    (hback : ∀ c ∈ back, isBlank c = true) (s : List Char) :
  trim (front ++ s ++ back) = trim s
  := by
  rw [trim_append_of_blank _ hback, trim, trim, trimStart, trimStart,
    List.dropWhile_append_of_pos hfront]

/-! ### The case of letters -/

theorem isBlank_toLower (c : Char) :
  isBlank c.toLower = isBlank c
  := by
  by_cases hc : 'A'.val ≤ c.val ∧ c.val ≤ 'Z'.val
  · have hlow : 65 ≤ c.toNat := hc.1
    have hhigh : c.toNat ≤ 90 := hc.2
    have hval : c.toLower.val = c.val + ('a'.val - 'A'.val) := congrArg Char.val (dif_pos hc)
    have hlower : c.toLower.toNat = c.toNat + 32 := by
      rw [Char.toNat, hval, UInt32.toNat_add]
      apply Nat.mod_eq_of_lt
      change c.toNat + 32 < 2 ^ 32
      omega
    have hcapital : isBlank c = false := by apply isBlank_of_visible <;> omega
    rw [hcapital]
    apply isBlank_of_visible <;> omega
  · have hsame : c.toLower = c := dif_neg hc
    rw [hsame]

theorem trim_map_toLower (s : List Char) :
  trim (s.map Char.toLower) = (trim s).map Char.toLower
  := by
  have hblank : isBlank ∘ Char.toLower = isBlank := funext isBlank_toLower
  rw [trim, trim, trimStart, trimStart, trimEnd, trimEnd]
  simp only [List.dropWhile_map, ← List.map_reverse, hblank]

/-- A text is trimmed if one that differs only in the case of letters is. -/
theorem trim_eq_self_of_asciiLower_eq {t u : String} (h : asciiLower t = asciiLower u)
    (hu : trim u.toList = u.toList) :
  trim t.toList = t.toList
  := by
  have hmap : t.toList.map Char.toLower = u.toList.map Char.toLower := String.ofList_injective h
  have hlower : (trim t.toList).map Char.toLower = t.toList.map Char.toLower := by
    rw [← trim_map_toLower, hmap, trim_map_toLower, hu]
  apply (trim_sublist t.toList).eq_of_length
  simpa using congrArg List.length hlower

end Fettle.Text
