import Mathlib.Data.List.TakeWhile
import Unstamp.Proofs.FileTree.Growth
import Unstamp.Proofs.Path.Below

namespace Unstamp.Path
variable {p t u : Path} {n s : Name} {c : Component}

/-- What makes no step at the end of a path: slashes, each alone or with one dot after it. -/
inductive Trailing : Path → Prop
  | nil : Trailing []
  | bare {t : Path} : Trailing t → Trailing (slash :: t)
  | dotted {t : Path} : Trailing t → Trailing (slash :: dot :: t)

theorem Trailing.append (h : Trailing t) (hu : Trailing u) : Trailing (t ++ u) := by
  induction h with
  | nil => exact hu
  | bare _ ih => exact .bare ih
  | dotted _ ih => exact .dotted ih

/-- The path ends in these bytes as its last step: before them stands nothing or a slash, and after
them what makes no step. -/
structure EndsIn (p : Path) (s : Name) : Prop where
  unsplit : slash ∉ s
  parts : ∃ front back, p = front ++ s ++ back ∧ (front = [] ∨ front.getLast? = some slash) ∧
    Trailing back

namespace EndsIn

private theorem after_slash (h : EndsIn p s) (d : Path) : EndsIn (d ++ slash :: p) s := by
  obtain ⟨hs, front, back, rfl, hfront, hback⟩ := h
  refine ⟨hs, d ++ slash :: front, back, by simp, .inr ?_, hback⟩
  rcases hfront with rfl | hlast
  · exact List.getLast?_concat
  · rw [List.getLast?_append, List.getLast?_cons, hlast]
    rfl

theorem append (h : EndsIn p s) (ht : Trailing t) : EndsIn (p ++ t) s := by
  obtain ⟨hs, front, back, rfl, hfront, hback⟩ := h
  exact ⟨hs, front, back ++ t, List.append_assoc .., hfront, hback.append ht⟩

end EndsIn

private theorem step?_eq_none_iff : step? s = none ↔ s = [] ∨ s = [dot] := by
  rw [step?]
  split
  · exact iff_of_true rfl ‹_›
  · split <;> exact iff_of_false (Option.some_ne_none _) ‹_›

/-- The step of a segment: none, one up, or one by its name. -/
theorem step?_cases (hs : slash ∉ s) :
    step? s = none ∨ s = [dot, dot] ∧ step? s = some .up ∨
      IsNormal s ∧ step? s = some (.name s) := by
  by_cases hidle : s = [] ∨ s = [dot]
  · exact .inl (step?_eq_none_iff.mpr hidle)
  by_cases hup : s = [dot, dot]
  · exact .inr (.inl ⟨hup, by rw [hup]; rfl⟩)
  · obtain ⟨hne, hdot⟩ := not_or.mp hidle
    have hn : IsNormal s := ⟨hne, hdot, hup, hs⟩
    exact .inr (.inr ⟨hn, hn.step?⟩)

/-- The pieces between slashes, with a slash before each, are the path with one more slash. -/
private theorem flatMap_segments (p : Path) : p.segments.flatMap (slash :: ·) = slash :: p := by
  induction p with
  | nil => rfl
  | cons a p ih =>
    obtain ⟨s, ss, hs⟩ := List.exists_cons_of_ne_nil (splitWhere_ne_nil (· == slash) p)
    rw [segments, hs] at ih
    rw [segments, splitWhere, hs]
    dsimp only
    split
    · rename_i ha
      rw [List.flatMap_cons, ih, beq_iff_eq.mp ha]
      rfl
    · rw [List.flatMap_cons, List.cons_append] at ih ⊢
      rw [List.cons_append, (List.cons.inj ih).2]

theorem trailing_iff :
    Trailing t ↔ ∃ ss : List Name, t = ss.flatMap (slash :: ·) ∧ ∀ s ∈ ss, step? s = none := by
  constructor
  · intro h
    induction h with
    | nil => exact ⟨[], rfl, List.forall_mem_nil _⟩
    | bare _ ih =>
      obtain ⟨ss, rfl, hss⟩ := ih
      exact ⟨[] :: ss, rfl, List.forall_mem_cons.mpr ⟨rfl, hss⟩⟩
    | dotted _ ih =>
      obtain ⟨ss, rfl, hss⟩ := ih
      exact ⟨[dot] :: ss, rfl, List.forall_mem_cons.mpr ⟨rfl, hss⟩⟩
  · rintro ⟨ss, rfl, hss⟩
    induction ss with
    | nil => exact .nil
    | cons s ss ih =>
      obtain ⟨hs, hrest⟩ := List.forall_mem_cons.mp hss
      rcases step?_eq_none_iff.mp hs with rfl | rfl
      · exact .bare (ih hrest)
      · exact .dotted (ih hrest)

/-- A path ends in one of its segments if those after it make no step. -/
private theorem endsIn_iff_segments :
    EndsIn p s ↔ ∃ ss ts, p.segments = ss ++ s :: ts ∧ ∀ t ∈ ts, step? t = none := by
  constructor
  · rintro ⟨hs, front, back, rfl, hfront, hback⟩
    obtain ⟨ts, rfl, hts⟩ := trailing_iff.mp hback
    have hslash : ∀ t ∈ ts, slash ∉ t := by
      intro t ht
      rcases step?_eq_none_iff.mp (hts t ht) with rfl | rfl <;> decide
    have hend : segments (s ++ ts.flatMap (slash :: ·)) = s :: ts := by
      rw [segments_append hs (segments_flatMap hslash), List.append_nil]
    rw [List.append_assoc]
    rcases hfront with rfl | hlast
    · exact ⟨[], ts, hend, hts⟩
    · obtain ⟨d, rfl⟩ := List.getLast?_eq_some_iff.mp hlast
      refine ⟨segments d, ts, ?_, hts⟩
      rw [List.append_assoc, List.singleton_append, segments_append_slash, hend]
  · rintro ⟨ss, ts, hsegments, hts⟩
    have hs : slash ∉ s := slash_not_mem_segment (p := p) (by simp [hsegments])
    have hback : Trailing (ts.flatMap (slash :: ·)) := trailing_iff.mpr ⟨ts, rfl, hts⟩
    have hp := flatMap_segments p
    rw [hsegments, List.flatMap_append, List.flatMap_cons] at hp
    refine ⟨hs, ?_⟩
    rcases List.append_eq_cons_iff.mp hp with ⟨-, hp⟩ | ⟨d, -, hp⟩
    · exact ⟨[], _, (List.cons.inj hp).2.symm, .inl rfl, hback⟩
    · exact ⟨d ++ [slash], _, by simp [hp], .inr List.getLast?_concat, hback⟩

/-- The last step of a path, but for one that its start makes. -/
private theorem getLast?_filterMap_segments :
    (p.segments.filterMap step?).getLast? = some c ↔ ∃ s, EndsIn p s ∧ step? s = some c := by
  simp only [List.getLast?_filterMap, List.findSome?_eq_some_iff, endsIn_iff_segments]
  constructor
  · rintro ⟨ts, s, ss, h, hs, hts⟩
    refine ⟨s, ⟨ss.reverse, ts.reverse, ?_, by simpa using hts⟩, hs⟩
    rw [← p.segments.reverse_reverse, h]
    simp
  · rintro ⟨s, ⟨ss, ts, h, hts⟩, hs⟩
    exact ⟨ts.reverse, s, ss.reverse, by simp [h], hs, by simpa using hts⟩

/-- A start takes no step from the segments of a path that these would make by themselves. -/
private theorem filterMap_body (p : Path) :
    p.layout.body.filterMap step? = p.segments.filterMap step? := by
  cases p with
  | nil => rfl
  | cons a r =>
    rw [layout]
    split
    · rename_i ha
      rw [ha, ← List.nil_append (slash :: r), segments_append_slash]
      rfl
    split
    · rename_i hdot
      obtain ⟨rfl, rfl | hr⟩ := hdot
      · rfl
      · obtain ⟨q, rfl⟩ := List.head?_eq_some_iff.mp hr
        rw [← List.singleton_append (l := slash :: q), segments_append_slash,
          ← List.nil_append (slash :: q), segments_append_slash]
        rfl
    · rfl

private theorem fileName?_eq_some_iff_getLast? :
    p.fileName? = some n ↔ (p.segments.filterMap step?).getLast? = some (.name n) := by
  rw [fileName?, components, filterMap_body, List.getLast?_append]
  cases (p.segments.filterMap step?).getLast? with
  | none => cases p.layout.start <;> simp [Start.steps]
  | some c => cases c <;> simp

/-- The file name of a path is the name in which it ends. -/
theorem fileName?_eq_some_iff : p.fileName? = some n ↔ IsNormal n ∧ EndsIn p n := by
  rw [fileName?_eq_some_iff_getLast?, getLast?_filterMap_segments]
  constructor
  · rintro ⟨s, h, hs⟩
    rcases step?_cases h.unsplit with hstep | ⟨-, hstep⟩ | ⟨hn, hstep⟩
    · cases hstep.symm.trans hs
    · cases hstep.symm.trans hs
    · cases hstep.symm.trans hs
      exact ⟨hn, h⟩
  · rintro ⟨hn, h⟩
    exact ⟨n, h, hn.step?⟩

/-- A path has no file name if it ends in two dots, or has nothing but slashes and single dots. -/
theorem fileName?_eq_none_iff :
    p.fileName? = none ↔ EndsIn p [dot, dot] ∨ ∀ s ∈ p.segments, s = [] ∨ s = [dot] := by
  rw [Option.eq_none_iff_forall_ne_some]
  simp only [← step?_eq_none_iff]
  constructor
  · intro h
    cases hlast : (p.segments.filterMap step?).getLast? with
    | none => exact .inr (List.filterMap_eq_nil_iff.mp (List.getLast?_eq_none_iff.mp hlast))
    | some c =>
      obtain ⟨s, hends, hs⟩ := getLast?_filterMap_segments.mp hlast
      rcases step?_cases hends.unsplit with hstep | ⟨rfl, -⟩ | ⟨hn, -⟩
      · cases hstep.symm.trans hs
      · exact .inl hends
      · exact absurd (fileName?_eq_some_iff.mpr ⟨hn, hends⟩) (h s)
  · intro h n hn
    rw [fileName?_eq_some_iff_getLast?] at hn
    rcases h with hup | hidle
    · have hlast := getLast?_filterMap_segments.mpr ⟨_, hup, rfl⟩
      cases hlast.symm.trans hn
    · rw [List.filterMap_eq_nil_iff.mpr hidle] at hn
      cases hn

/-- A slash that comes before a path with a file name does not change this, whatever stands before
the slash. -/
theorem fileName?_after_slash (h : p.fileName? = some n) (d : Path) :
    (d ++ slash :: p).fileName? = some n := by
  obtain ⟨hn, hends⟩ := fileName?_eq_some_iff.mp h
  exact fileName?_eq_some_iff.mpr ⟨hn, hends.after_slash d⟩

theorem fileName?_path_concat (hn : IsName n) (d : Place) :
    (Place.path (d ++ [n])).fileName? = some n := by
  have hends : EndsIn n n := ⟨hn.2.2.2.1, [], [], by simp, .inl rfl, .nil⟩
  rw [Place.path_concat]
  exact fileName?_after_slash (fileName?_eq_some_iff.mpr ⟨hn.normal, hends⟩) _

theorem fileName?_append (h : p.fileName? = some n) (ht : Trailing t) :
    (p ++ t).fileName? = some n := by
  obtain ⟨hn, hends⟩ := fileName?_eq_some_iff.mp h
  exact fileName?_eq_some_iff.mpr ⟨hn, hends.append ht⟩

/-- Of a name with a dot, what comes after the last one is the extension, unless this dot is the
first byte. -/
theorem extension?_append {e : Name} (he : dot ∉ e) (stem : Name) :
    extension? (stem ++ dot :: e) = if stem = [] then none else some e := by
  have hall : ∀ b ∈ e.reverse, (b != dot) = true := fun b hb =>
    bne_iff_ne.mpr (ne_of_mem_of_not_mem (List.mem_reverse.mp hb) he)
  have hafter : ((stem ++ dot :: e).reverse.takeWhile (· != dot)).reverse = e := by
    rw [List.reverse_append, List.reverse_cons, List.append_assoc,
      List.takeWhile_append_of_pos hall]
    simp
  simp only [extension?, hafter, List.length_append, List.length_cons]
  cases stem with
  | nil => rw [if_neg (by simp), if_pos rfl]
  | cons b stem => rw [if_pos (by simp), if_neg (List.cons_ne_nil b stem)]

theorem extension?_of_not_mem (h : dot ∉ n) : extension? n = none := by
  have hall : ∀ b ∈ n.reverse, (b != dot) = true := fun b hb =>
    bne_iff_ne.mpr (ne_of_mem_of_not_mem (List.mem_reverse.mp hb) h)
  have hwhole : (n.reverse.takeWhile (· != dot)).reverse = n := by
    rw [List.takeWhile_eq_self_iff.mpr hall, List.reverse_reverse]
  simp only [extension?, hwhole]
  exact if_neg (by omega)

theorem extension?_eq_some_iff {e : Name} :
    extension? n = some e ↔ dot ∉ e ∧ ∃ stem, stem ≠ [] ∧ n = stem ++ dot :: e := by
  constructor
  · intro h
    by_cases hdot : dot ∈ n
    · obtain ⟨r, s, hn, hr⟩ := List.eq_append_cons_of_mem (List.mem_reverse.mpr hdot)
      have hlast : n = s.reverse ++ dot :: r.reverse := by
        rw [← n.reverse_reverse, hn]
        simp
      have hr' : dot ∉ r.reverse := mt List.mem_reverse.mp hr
      rw [hlast, extension?_append hr'] at h
      split at h
      · cases h
      · rename_i hstem
        cases h
        exact ⟨hr', s.reverse, hstem, hlast⟩
    · rw [extension?_of_not_mem hdot] at h
      cases h
  · rintro ⟨he, stem, hstem, rfl⟩
    rw [extension?_append he, if_neg hstem]

end Unstamp.Path
