import Unstamp.Cleaner.InTree
import Unstamp.Proofs.Cleaner.Repeated

namespace Unstamp

instance decidableExistsOk {ε α : Type} (x : Except ε α) (p : α → Prop) [DecidablePred p] :
    Decidable (∃ a, x = .ok a ∧ p a) :=
  match x with
  | .error _ => isFalse nofun
  | .ok a => decidable_of_iff (p a)
      ⟨fun h => ⟨a, rfl, h⟩, fun ⟨_, he, h⟩ => Except.ok.inj he ▸ h⟩

instance (t : Text) : Decidable (Comment.Canonical t) :=
  decidable_of_iff (Comment.remove t = t) Comment.remove_eq_self_iff

instance decidableInfix (s t : Text) : Decidable (s <:+: t) :=
  decidable_of_iff (occursIn s t = true) occursIn_iff

/-- The lines kept of a text make up its bytes just if the text is in the form of its lines. -/
theorem CommentLines.encode_joined_kept_eq_iff {f : CommentLines} {b : Bytes} {t : Text}
    (hd : Charset.utf8.decode b = .ok t) :
    Utf8.encode (Line.joined (f.kept t)) = b ↔ Line.Canonical f.marker t := by
  have hb : Utf8.encode t = b :=
    Except.ok.inj ((Charset.encode_utf8 t).symm.trans (Charset.encode_of_decode hd))
  rw [← Line.joined_unmarked_eq_self_iff, ← CommentLines.kept]
  constructor
  · intro h
    have hd' := Charset.decode_of_encode (Charset.encode_utf8 (Line.joined (f.kept t)))
    rw [h, hd] at hd'
    exact (Except.ok.inj hd').symm
  · intro h
    rw [h, hb]

namespace Cleaner
variable {c : Cleaner} {b : Bytes}

/-- The form of a property file is that of its lines. A source has its form if it lacks the
signature, whatever bytes it has, or if no comment opens in its text. -/
def Canonical : Cleaner → Bytes → Prop
  | lines f, b => ∃ t, Charset.utf8.decode b = .ok t ∧ Line.Canonical f.marker t
  | source g, b => ¬ g.signature.text <:+: g.charset.decodeLossy b ∨
      ∃ t, g.charset.decode b = .ok t ∧ Comment.Canonical t

instance (c : Cleaner) (b : Bytes) : Decidable (c.Canonical b) :=
  match c with
  | lines _ => inferInstanceAs (Decidable (∃ _, _))
  | source _ => inferInstanceAs (Decidable (_ ∨ _))

private theorem cleanBytes_lines_self_iff (f : CommentLines) :
    (∃ outcome, (lines f).cleanBytes b = .ok (outcome, b)) ↔ (lines f).Canonical b := by
  constructor
  · rintro ⟨outcome, h⟩
    obtain ⟨t, hd⟩ := decode_of_cleanBytes_lines h
    rw [cleanBytes_lines f hd] at h
    have hb : Utf8.encode (Line.joined (f.kept t)) = b := congrArg Prod.snd (Except.ok.inj h)
    exact ⟨t, hd, (CommentLines.encode_joined_kept_eq_iff hd).mp hb⟩
  · rintro ⟨t, hd, ht⟩
    rw [cleanBytes_lines f hd, (CommentLines.encode_joined_kept_eq_iff hd).mpr ht]
    exact ⟨_, rfl⟩

private theorem cleanBytes_source_self_iff (g : GeneratedSource) :
    (∃ outcome, (source g).cleanBytes b = .ok (outcome, b)) ↔ (source g).Canonical b := by
  rw [cleanBytes_source]
  simp only [mapError_eq_ok]
  constructor
  · rintro ⟨outcome, h⟩
    rcases GeneratedSource.produce_cases h with ⟨-, -, hm⟩ | ⟨t, -, hd, -, ho⟩
    · exact .inl hm
    · have ht : t = Comment.remove t := Except.ok.inj (hd.symm.trans ho)
      exact .inr ⟨t, hd, Comment.remove_eq_self_iff.mp ht.symm⟩
  · intro h
    by_cases hm : g.signature.text <:+: g.charset.decodeLossy b
    · obtain ⟨t, hd, ht⟩ := h.resolve_left (not_not_intro hm)
      refine ⟨.stripped, GeneratedSource.produce_stripped hm hd ?_⟩
      rw [Comment.remove_of_canonical ht]
      exact Charset.encode_of_decode hd
    · exact ⟨_, GeneratedSource.produce_of_unmarked hm⟩

/-- A cleaner leaves bytes as they are just if they are in its canonical form. -/
theorem cleanBytes_self_iff :
    (∃ outcome, c.cleanBytes b = .ok (outcome, b)) ↔ c.Canonical b := by
  cases c with
  | lines f => exact cleanBytes_lines_self_iff f
  | source g => exact cleanBytes_source_self_iff g

/-- What is cleaned differs from what it was before just if that was not in canonical form. -/
theorem changed_iff {outcome : Outcome} {after : Bytes}
    (h : c.cleanBytes b = .ok (outcome, after)) :
    (Cleaned.mk b after outcome).changed = true ↔ ¬ c.Canonical b := by
  rw [← cleanBytes_self_iff, Cleaned.changed, bne_iff_ne, not_iff_not]
  constructor
  · intro he
    obtain rfl : after = b := he
    exact ⟨outcome, h⟩
  · rintro ⟨outcome', h'⟩
    rw [h] at h'
    exact congrArg Prod.snd (Except.ok.inj h')

end Cleaner

end Unstamp
