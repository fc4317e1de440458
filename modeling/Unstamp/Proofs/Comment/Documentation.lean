import Unstamp.Proofs.Comment.Canonical

/-! A scan has no mode for documentation: what it holds is read as code, and its closing slash
together with what comes after it. -/
namespace Unstamp.Comment

/-- A block that opens with two stars and goes to the first closing delimiter from its third
character on. -/
structure Documentation (d : Text) : Prop where
  opens : ['/', '*', '*'] <+: d
  closes : firstIndex? (fun t => ['*', '/'] <+: t) (d.drop 2) = some (d.length - 4)

instance (d : Text) : Decidable (Documentation d) :=
  decidable_of_iff (_ ∧ _) ⟨fun h => ⟨h.1, h.2⟩, fun h => ⟨h.opens, h.closes⟩⟩

variable {a d t : Text}

private theorem Documentation.exists_body (h : Documentation d) : ∃ body, d = body ++
    ['*', '/'] := by
  obtain ⟨hp, -, -⟩ := List.find?_range_eq_some.mp h.closes
  rw [decide_eq_true_eq, List.drop_drop] at hp
  obtain ⟨r, hr⟩ := hp
  have hlen := congrArg List.length hr
  simp only [List.length_append, List.length_cons, List.length_nil, List.length_drop] at hlen
  obtain rfl : r = [] := List.eq_nil_of_length_eq_zero (by omega)
  refine ⟨d.take (2 + (d.length - 4)), ?_⟩
  rw [List.append_nil] at hr
  rw [hr, List.take_append_drop]

/-- Whether a comment opens is told by three characters. -/
private theorem opens_append (h : 3 ≤ t.length) (r : Text) : Opens (t ++ r) ↔ Opens t := by
  match t, h with
  | a :: b :: c :: t, _ => simp [Opens, OpensLine, OpensBlock, List.cons_prefix_cons]

/-- A comment that opens in a text with a slash at its end opens there whatever comes next. -/
theorem Opens.append (h : Opens (t ++ ['/'])) (r : Text) : Opens (t ++ ['/'] ++ r) := by
  match t, h with
  | [], h => exact absurd h (by decide)
  | [c], h =>
    by_cases hc : c = '/'
    · subst hc
      exact opens_line r
    · exact absurd h (not_opens_of_ne hc _)
  | b :: c :: t, h => exact (opens_append (by simp) r).mpr h

/-- No comment opens in a part of such a text that ends with a slash. -/
theorem Canonical.of_append {r : Text} (h : Canonical (a ++ (t ++ ['/']) ++ r)) :
    Canonical (t ++ ['/']) := by
  rw [canonical_iff_suffix] at h ⊢
  rintro s hs ho
  rcases List.suffix_concat_iff.mp hs with rfl | ⟨u, rfl, hu⟩
  · exact absurd ho (by decide)
  · apply h (u ++ ['/'] ++ r) _ (ho.append r)
    obtain ⟨v, rfl⟩ := hu
    exact ⟨a ++ v, by simp⟩

/-- A block in which no comment opens is copied up to its closing slash, which is read together
with what comes next. -/
private theorem remove_closed (h : Canonical (t ++ ['*', '/'])) (r : Text) :
    remove (t ++ ['*', '/'] ++ r) = t ++ ['*'] ++ remove ('/' :: r) := by
  have hsplit : t ++ ['*', '/'] ++ r = t ++ ['*'] ++ '/' :: r := by simp
  rw [hsplit]
  apply remove_append_copy
  intro s hs hsuf
  rcases List.suffix_concat_iff.mp hsuf with rfl | ⟨u, rfl, v, rfl⟩
  · exact absurd rfl hs
  · have hend : u ++ ['*'] ++ '/' :: r = u ++ ['*', '/'] ++ r := by simp
    rw [hend]
    cases u with
    | nil => exact not_opens_of_ne (by decide) _
    | cons c u =>
      rw [opens_append (by simp)]
      exact canonical_iff_suffix.mp h _ ⟨v, by simp⟩

/-- Documentation is copied whole and what follows it is read on its own if and only if no comment
opens in it and its closing slash is copied before what follows, which it is where it opens none.
With no comment in it, only that slash can be lost, to a comment that it opens. -/
theorem remove_documentation (ha : '/' ∉ a) (hd : Documentation d) (b : Text) :
    (remove (a ++ d ++ b) = a ++ d ++ remove b ↔
      Canonical d ∧ remove ('/' :: b) = '/' :: remove b) ∧
    (Canonical d → remove (a ++ d ++ b) = a ++ d.dropLast ++ remove ('/' :: b)) := by
  obtain ⟨t, rfl⟩ := hd.exists_body
  have hcopy (h : Canonical (t ++ ['*', '/'])) :
      remove (a ++ (t ++ ['*', '/']) ++ b) = a ++ (t ++ ['*']) ++ remove ('/' :: b) := by
    rw [List.append_assoc, remove_append_of_not_mem ha, remove_closed h, List.append_assoc a]
  have hwhole (r : Text) : a ++ (t ++ ['*', '/']) ++ r = a ++ (t ++ ['*']) ++ '/' :: r := by simp
  refine ⟨⟨fun h => ?_, fun ⟨hc, hslash⟩ => ?_⟩, fun hc => ?_⟩
  · have hc : Canonical (t ++ ['*', '/']) := by
      have hall := h ▸ canonical_remove (a ++ (t ++ ['*', '/']) ++ b)
      have hend : t ++ ['*', '/'] = t ++ ['*'] ++ ['/'] := by simp
      rw [hend] at hall ⊢
      exact hall.of_append
    rw [hcopy hc, hwhole] at h
    exact ⟨hc, List.append_cancel_left h⟩
  · rw [hcopy hc, hslash, hwhole]
  · rw [hcopy hc]
    simp

example : remove "/** d *//* c */y".toList = "/** d *".toList := by decide

/-- Documentation with stars beside its delimiters and a slash in it, and a line comment after it.
-/
theorem remove_documentation_starred :
    let a : Text := "int a; ".toList
    let d : Text := "/*** @see a/b **/".toList
    let b : Text := " // c\nint d;".toList
    '/' ∉ a ∧ Documentation d ∧ remove (a ++ d ++ b) = a ++ d ++ " int d;".toList := by
  intro a d b
  have ha : '/' ∉ a := by decide
  have hd : Documentation d := by decide
  have hc : Canonical d := remove_eq_self_iff.mp (by decide)
  exact ⟨ha, hd, (remove_documentation ha hd b).1.mpr ⟨hc, by decide⟩⟩

/-- An address in documentation takes the closing delimiter with it, and the rest of the line. -/
theorem remove_documentation_address :
    let d : Text := "/** http://x */".toList
    Documentation d ∧ remove ([] ++ d ++ ['y']) = "/** http:".toList ∧
      remove ([] ++ d ++ ['y']) ≠ [] ++ d ++ remove ['y'] := by
  intro d
  exact ⟨by decide, by decide, by decide⟩

end Unstamp.Comment
