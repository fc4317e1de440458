import Unstamp.Proofs.Charset.Bytewise
import Unstamp.Proofs.Path.Below

namespace Unstamp.Path
variable {p q root : Path} {n : Name} {names : List Name}

def Plain (p : Path) : Prop :=
  ∃ t, Utf8.encode t = p ∧ '\\' ∉ t

private theorem slashed_append_slash (p r : Path) :
    slashed (p ++ slash :: r) = slashed p ++ '/' :: slashed r := by
  have h := Utf8.decodeLossy_append (a := slash) (by decide) p r
  rw [slashed, shown, h, List.map_append, List.map_cons]
  rfl

private theorem slashed_joinWith (names : List Name) :
    slashed (joinWith slash names) = joinWith '/' (names.map slashed) := by
  induction names with
  | nil =>
    rw [joinWith, slashed, shown, Utf8.decodeLossy, Piece.cut]
    rfl
  | cons n names ih =>
    cases names with
    | nil => rfl
    | cons m names =>
      change slashed (n ++ slash :: joinWith slash (m :: names)) = _
      rw [slashed_append_slash, ih]
      rfl

private theorem backslash_not_mem_slashed (p : Path) : '\\' ∉ slashed p := by
  intro h
  obtain ⟨c, -, hc⟩ := List.mem_map.mp h
  split at hc
  · cases hc
  · contradiction

private theorem slashed_encode {t : Text} (h : '\\' ∉ t) : slashed (Utf8.encode t) = t := by
  have hshown : shown (Utf8.encode t) = t :=
    Charset.decodeLossy_of_decode (Charset.decode_of_encode (Charset.encode_utf8 t))
  have hkept : ∀ c ∈ t, (if c = '\\' then '/' else c) = c := fun c hc =>
    if_neg (ne_of_mem_of_not_mem hc h)
  rw [slashed, hshown, List.map_congr_left hkept, List.map_id']

/-- Plain bytes are those that can be told from what is shown of them. -/
theorem plain_iff : Plain p ↔ Utf8.encode (slashed p) = p := by
  constructor
  · rintro ⟨t, rfl, ht⟩
    rw [slashed_encode ht]
  · exact fun h => ⟨slashed p, h, backslash_not_mem_slashed p⟩

/-- What stands after a slash in plain bytes is plain. -/
private theorem plain_of_append (h : Plain (p ++ slash :: q)) : Plain q := by
  obtain ⟨t, ht, hmem⟩ := h
  obtain ⟨s, u, rfl, -, hu⟩ := Utf8.exists_of_encode_eq_append (by decide) ht
  exact ⟨u, hu, fun hq => hmem (by simp [hq])⟩

private theorem display_of_below? {r : Path} (h : below? root p = some r) (hr : r ≠ []) :
    display root p = slashed r := by
  obtain ⟨a, s, rfl⟩ := List.exists_cons_of_ne_nil hr
  rw [display, relativeTo, h]

private theorem ne_nil_of_mem_components (h : .name n ∈ p.components) : n ≠ [] := by
  rw [components, List.mem_append, List.mem_filterMap] at h
  rcases h with h | ⟨s, -, hs⟩
  · cases hstart : p.layout.start <;> simp [hstart, Start.steps] at h
  · rw [step?] at hs
    split at hs
    · cases hs
    · rename_i hne
      split at hs
      · cases hs
      · obtain rfl := Component.name.inj (Option.some.inj hs)
        exact fun h => hne (.inl h)

/-- A path that leads where its root does, by a name, is shown by that name. -/
theorem display_of_components_eq (h : p.components = root.components)
    (hlast : p.components.getLast? = some (.name n)) : display root p = slashed n := by
  have hroot : root ≠ [] := by
    rintro rfl
    rw [h] at hlast
    cases hlast
  have hbelow : below? root p = some [] :=
    below?_of_body hroot h.symm (List.append_nil _).symm (List.forall_mem_nil _)
  have hname : p.fileName? = some n := by rw [fileName?, hlast]
  obtain ⟨a, s, rfl⟩ :=
    List.exists_cons_of_ne_nil (ne_nil_of_mem_components (List.mem_of_getLast? hlast))
  rw [display, relativeTo, hbelow, hname]
  rfl

/-- Of the root only its steps count. -/
theorem display_congr (h : p.components = q.components) (r : Path) : display p r = display q r := by
  rw [display, display, relativeTo, relativeTo, below?, below?, h]

namespace Below

private theorem display_eq (h : Below root names p) : display root p = slashed
    (joinWith slash names) :=
  display_of_below? h.below?_eq h.joinWith_ne_nil

theorem plain (h : Below root names p) (hp : Plain p) : Plain (joinWith slash names) := by
  rw [h.path_eq] at hp
  rcases base_eq_nil_or_concat root with rfl | ⟨q, hq⟩
  · exact hp
  · rw [hq, List.append_assoc, List.singleton_append] at hp
    exact plain_of_append hp

theorem encode_display_iff (h : Below root names p) :
    Utf8.encode (display root p) = joinWith slash names ↔ Plain (joinWith slash names) := by
  rw [h.display_eq, plain_iff]

private theorem join_encode_display (h : Below root names p) (hp : Plain (joinWith slash names)) :
    root.join (Utf8.encode (display root p)) = p := by
  rw [h.encode_display_iff.mpr hp, join_eq, ← h.path_eq]

end Below

/-- However a root is spelled, a path below it is shown by its names with slashes between them, each
with its backslashes turned to slashes and U+FFFD for what is not UTF-8. If these are UTF-8 without
a backslash, as they are in a path that is, then they can be told from what is shown, this leads
from the root back to the path, and no two such paths are shown alike. A path with the same steps as
the root is shown by its last name. -/
theorem display_below (root : Path) :
    (∀ root' p, root.components = root'.components → display root p = display root' p) ∧
    (∀ names p, Below root names p →
      display root p = slashed (joinWith slash names) ∧
      display root p = joinWith '/' (names.map slashed) ∧
      (Plain p → Plain (joinWith slash names)) ∧
      (Utf8.encode (display root p) = joinWith slash names ↔ Plain (joinWith slash names)) ∧
      (Plain (joinWith slash names) → root.join (Utf8.encode (display root p)) = p)) ∧
    (∀ names names' p p', Below root names p → Below root names' p' →
      Plain (joinWith slash names) → Plain (joinWith slash names') →
      display root p = display root p' → p = p') ∧
    ∀ p n, p.components = root.components → root.components.getLast? = some (.name n) →
      display root p = slashed n := by
  refine ⟨fun root' p h => display_congr h p, fun names p h => ?_, ?_, fun p n h hlast => ?_⟩
  · exact ⟨h.display_eq, h.display_eq.trans (slashed_joinWith names), h.plain,
      h.encode_display_iff, h.join_encode_display⟩
  · intro names names' p p' h h' hplain hplain' hshown
    rw [← h.join_encode_display hplain, hshown, h'.join_encode_display hplain']
  · exact display_of_components_eq h (h ▸ hlast)

/-- A root with a dot inside, slashes in a row and one at its end. -/
theorem display_below_spelled :
    let root : Path := Utf8.encode ['a', '/', '/', '.', '/', 'b', '/']
    let short : Path := Utf8.encode ['a', '/', 'b']
    let dir : Name := Utf8.encode ['c']
    let file : Name := Utf8.encode ['d', '.', 'x']
    let p := root.joinAll [dir, file]
    root.components = short.components ∧
      display root p = ['c', '/', 'd', '.', 'x'] ∧ display short p = ['c', '/', 'd', '.', 'x'] ∧
      root.join (Utf8.encode ['c', '/', 'd', '.', 'x']) = p ∧
      display root p ≠ display root (root.joinAll [dir]) ∧
      display short root = ['b'] := by
  intro root short dir file p
  obtain ⟨hcongr, hbelow, hinj, -⟩ := display_below root
  obtain ⟨-, -, -, hsame⟩ := display_below short
  have hsteps : root.components = short.components := by decide
  have hp : Below root [dir, file] p := ⟨by simp, by decide, rfl⟩
  have hdir : Below root [dir] (root.joinAll [dir]) := ⟨by simp, by decide, rfl⟩
  have hplain : Plain (joinWith slash [dir, file]) :=
    ⟨['c', '/', 'd', '.', 'x'], by decide, by decide⟩
  have hplain' : Plain (joinWith slash [dir]) := ⟨['c'], by decide, by decide⟩
  obtain ⟨hshown, -, -, -, hback⟩ := hbelow _ _ hp
  have hnames : joinWith slash [dir, file] = Utf8.encode ['c', '/', 'd', '.', 'x'] := by decide
  rw [hnames, slashed_encode (by decide)] at hshown
  refine ⟨hsteps, hshown, ?_, ?_, fun h => ?_, ?_⟩
  · rw [← hcongr short p hsteps, hshown]
  · rw [← hshown, hback hplain]
  · exact absurd (hinj _ _ _ _ hp hdir hplain hplain' h) (by decide)
  · rw [hsame root (Utf8.encode ['b']) hsteps (by decide), slashed_encode (by decide)]

end Unstamp.Path
