import Mathlib.Data.List.Forall2
import Unstamp.Cleaner.Basic
import Unstamp.Proofs.Charset.Bytewise
import Unstamp.Proofs.Path.FileName

namespace Unstamp

namespace Text
variable {t e : Text} {c d : Char}

def AnyCase (t e : Text) : Prop :=
  List.Forall₂ (fun d c => c = d ∨ c = d.toUpper) t e

private theorem toNat_toUpper (hd : 'a' ≤ d ∧ d ≤ 'z') : d.toUpper.toNat = d.toNat - 32 := by
  have hsmall : 97 ≤ d.toNat ∧ d.toNat ≤ 122 := hd
  have hrange : 'a'.val ≤ d.val ∧ d.val ≤ 'z'.val := hd
  have hval : d.toUpper.val = d.val + ('A'.val - 'a'.val) := by
    delta Char.toUpper
    rw [dif_pos hrange]
  have hshift : ('A'.val - 'a'.val).toNat = 2 ^ 32 - 32 := by decide
  have hsum : d.toUpper.toNat = (d.toNat + (2 ^ 32 - 32)) % 2 ^ 32 := by
    rw [Char.toNat, hval, UInt32.toNat_add, hshift]
    rfl
  rw [hsum]
  omega

/-- What is a small letter once capitals are made small is this letter or its capital. -/
private theorem lowered_eq_iff (hd : 'a' ≤ d ∧ d ≤ 'z') :
    (if 'A' ≤ c ∧ c ≤ 'Z' then Char.ofNat (c.toNat + 32) else c) = d ↔ c = d ∨ c = d.toUpper := by
  have hsmall : 97 ≤ d.toNat ∧ d.toNat ≤ 122 := hd
  have hcapital : 'A' ≤ c ∧ c ≤ 'Z' ↔ 65 ≤ c.toNat ∧ c.toNat ≤ 90 := Iff.rfl
  have hor : c = d ∨ c = d.toUpper ↔ c.toNat = d.toNat ∨ c.toNat = d.toNat - 32 := by
    rw [← toNat_toUpper hd, Char.toNat_inj, Char.toNat_inj]
  rw [hor, ← Char.toNat_inj]
  split
  · rename_i hc
    rw [hcapital] at hc
    rw [toNat_charOfNat (.inl (by omega))]
    omega
  · rename_i hc
    rw [hcapital] at hc
    omega

private theorem lowerAscii_eq_iff (h : ∀ d ∈ t, 'a' ≤ d ∧ d ≤ 'z') :
    lowerAscii e = t ↔ AnyCase t e := by
  induction t generalizing e with
  | nil =>
    rw [AnyCase, List.forall₂_nil_left_iff]
    exact List.map_eq_nil_iff
  | cons d t ih =>
    obtain ⟨hd, ht⟩ := List.forall_mem_cons.mp h
    cases e with
    | nil => exact ⟨nofun, nofun⟩
    | cons c e =>
      rw [AnyCase, List.forall₂_cons, ← lowered_eq_iff hd, ← AnyCase, ← ih ht]
      exact List.cons_eq_cons

end Text

namespace Selection
open Unstamp.Path (EndsIn IsNormal Trailing slash dot)
variable {charset : Charset} {policy : WritePolicy} {p : Path} {n : Name} {name e : Text}

/-- The name of a source: something, a dot, and the extension in any case of its letters. -/
def IsSourceName (name : Text) : Prop :=
  ∃ stem e, stem ≠ [] ∧ name = stem ++ '.' :: e ∧ Text.AnyCase sourceExtension e

private theorem anyCase_sourceExtension :
    Text.lowerAscii e = sourceExtension ↔ Text.AnyCase sourceExtension e := by
  have hsmall : sourceExtension.all (fun d => 'a' ≤ d ∧ d ≤ 'z') = true := rfl
  exact Text.lowerAscii_eq_iff (by simpa using hsmall)

private theorem IsSourceName.ne_propertiesName (h : IsSourceName name) : name ≠ propertiesName := by
  rintro rfl
  obtain ⟨stem, e, -, hname, he⟩ := h
  have hlow : Text.lowerAscii propertiesName = Text.lowerAscii stem ++ '.' :: sourceExtension := by
    rw [hname, ← anyCase_sourceExtension.mpr he]
    exact List.map_append
  have hlast := congrArg List.getLast? hlow
  rw [List.getLast?_append] at hlast
  change some 's' = some 'a' at hlast
  exact absurd hlast (by decide)

private theorem encode_stem (stem e : Text) :
    Utf8.encode (stem ++ '.' :: e) = Utf8.encode stem ++ dot :: Utf8.encode e :=
  List.flatMap_append

/-- The extension of a name that is UTF-8 is found in its text as it is in its bytes. -/
private theorem extension?_encode :
    (Path.extension? (Utf8.encode name)).bind Utf8.decode? = some e ↔
    '.' ∉ e ∧ ∃ stem, stem ≠ [] ∧ name = stem ++ '.' :: e := by
  have hdot : dot ∈ Utf8.encode e ↔ '.' ∈ e := Utf8.mem_encode (by decide)
  simp only [Option.bind_eq_some_iff, Path.extension?_eq_some_iff, Utf8.decode?_eq_some_iff]
  constructor
  · rintro ⟨_, ⟨he, stem, hstem, hname⟩, rfl⟩
    obtain ⟨s, u, rfl, rfl, hu⟩ := Utf8.exists_of_encode_eq_append (by decide) hname
    obtain rfl := Utf8.encode_inj.mp hu
    exact ⟨mt hdot.mpr he, s, Utf8.encode_ne_nil.mp hstem, rfl⟩
  · rintro ⟨he, stem, hstem, rfl⟩
    exact ⟨_, ⟨mt hdot.mp he, _, Utf8.encode_ne_nil.mpr hstem, encode_stem stem e⟩, rfl⟩

theorem isSourceName_iff : IsSourceName name ↔
    ∃ e, (Path.extension? (Utf8.encode name)).bind Utf8.decode? = some e ∧
      Text.lowerAscii e = sourceExtension := by
  simp only [extension?_encode, anyCase_sourceExtension]
  constructor
  · rintro ⟨stem, e, hstem, hname, he⟩
    refine ⟨e, ⟨fun hdot => ?_, stem, hstem, hname⟩, he⟩
    have hmem : '.' ∈ Text.lowerAscii e := List.mem_map.mpr ⟨'.', hdot, by decide⟩
    rw [anyCase_sourceExtension.mpr he] at hmem
    exact absurd hmem (by decide)
  · rintro ⟨e, ⟨-, stem, hstem, hname⟩, he⟩
    exact ⟨stem, e, hstem, hname, he⟩

/-- The answer for a name that is UTF-8. -/
theorem forName?_cases (charset : Charset) (policy : WritePolicy) (name : Text) :
    name = propertiesName ∧ forName? charset policy (Utf8.encode name) = some (.lines { policy }) ∨
      IsSourceName name ∧ forName? charset policy (Utf8.encode name) = some (.source { charset }) ∨
      name ≠ propertiesName ∧ ¬ IsSourceName name ∧
        forName? charset policy (Utf8.encode name) = none := by
  have hdecode : Utf8.decode? (Utf8.encode name) = some name := Utf8.decode?_eq_some_iff.mpr rfl
  simp only [forName?, hdecode, isSourceName_iff]
  by_cases hname : name = propertiesName
  · exact .inl ⟨hname, if_pos hname⟩
  rw [if_neg hname]
  cases hext : (Path.extension? (Utf8.encode name)).bind Utf8.decode? with
  | none => exact .inr (.inr ⟨hname, by simp, rfl⟩)
  | some e =>
    by_cases he : Text.lowerAscii e = sourceExtension
    · exact .inr (.inl ⟨⟨e, rfl, he⟩, if_pos he⟩)
    · exact .inr (.inr ⟨hname, by simpa using he, if_neg he⟩)

theorem forName?_encode (charset : Charset) (policy : WritePolicy) (name : Text) :
    (forName? charset policy (Utf8.encode name) = some (.lines { policy }) ↔
      name = propertiesName) ∧
    (forName? charset policy (Utf8.encode name) = some (.source { charset }) ↔
      IsSourceName name) ∧
    (forName? charset policy (Utf8.encode name) = none ↔
      name ≠ propertiesName ∧ ¬ IsSourceName name) := by
  rcases forName?_cases charset policy name with ⟨hp, h⟩ | ⟨hs, h⟩ | ⟨hp, hs, h⟩
  · have hs : ¬ IsSourceName name := fun hs => hs.ne_propertiesName hp
    rw [h]
    exact ⟨iff_of_true rfl hp, iff_of_false nofun hs, iff_of_false nofun fun hn => hn.1 hp⟩
  · rw [h]
    exact ⟨iff_of_false nofun hs.ne_propertiesName, iff_of_true rfl hs,
      iff_of_false nofun fun hn => hn.2 hs⟩
  · rw [h]
    exact ⟨iff_of_false nofun hp, iff_of_false nofun hs, iff_of_true rfl ⟨hp, hs⟩⟩

private theorem forName?_of_not_utf8 (h : ∀ name, Utf8.encode name ≠ n) :
    forName? charset policy n = none := by
  have hdecode : Utf8.decode? n = none :=
    Option.eq_none_iff_forall_ne_some.mpr fun name => mt Utf8.decode?_eq_some_iff.mp (h name)
  rw [forName?, hdecode]

private theorem cleanerFor?_of_fileName? (charset : Charset) (policy : WritePolicy)
    (h : p.fileName? = some n) :
    cleanerFor? charset policy p = forName? charset policy n := by
  rw [cleanerFor?, h, Option.bind_some]

/-- Which cleaner a path gets is told by its last step alone: none if this is no name, or one that
is not UTF-8; that for lines if it is the name of the property files; that for sources if it is
something, a dot, and the extension of sources in any case of its letters; and none otherwise. So
the answer for a path with a file name stays when anything that ends in a slash is put before it, or
slashes and single dots after it. -/
theorem selection_by_last_name (charset : Charset) (policy : WritePolicy) :
    (∀ p q : Path, p.components.getLast? = q.components.getLast? →
      cleanerFor? charset policy p = cleanerFor? charset policy q) ∧
    (∀ p : Path, p.fileName? = none ↔
      EndsIn p [dot, dot] ∨ ∀ s ∈ p.segments, s = [] ∨ s = [dot]) ∧
    (∀ (p : Path) (n : Name), p.fileName? = some n ↔ IsNormal n ∧ EndsIn p n) ∧
    (∀ p : Path, p.fileName? = none → cleanerFor? charset policy p = none) ∧
    (∀ (p : Path) (n : Name), p.fileName? = some n → (∀ name, Utf8.encode name ≠ n) →
      cleanerFor? charset policy p = none) ∧
    (∀ (p : Path) (name : Text), p.fileName? = some (Utf8.encode name) →
      (cleanerFor? charset policy p = some (.lines { policy }) ↔ name = propertiesName) ∧
      (cleanerFor? charset policy p = some (.source { charset }) ↔ IsSourceName name) ∧
      (cleanerFor? charset policy p = none ↔ name ≠ propertiesName ∧ ¬ IsSourceName name)) ∧
    ∀ p : Path, p.fileName? ≠ none →
      (∀ d, cleanerFor? charset policy (d ++ slash :: p) = cleanerFor? charset policy p) ∧
      ∀ t, Trailing t → cleanerFor? charset policy (p ++ t) = cleanerFor? charset policy p := by
  refine ⟨fun p q h => ?_, fun p => Path.fileName?_eq_none_iff,
    fun p n => Path.fileName?_eq_some_iff, fun p h => ?_, fun p n h hn => ?_, fun p name h => ?_,
    fun p h => ?_⟩
  · rw [cleanerFor?, cleanerFor?, Path.fileName?, Path.fileName?, h]
  · rw [cleanerFor?, h, Option.bind_none]
  · rw [cleanerFor?_of_fileName? charset policy h, forName?_of_not_utf8 hn]
  · rw [cleanerFor?_of_fileName? charset policy h]
    exact forName?_encode charset policy name
  · obtain ⟨n, hn⟩ := Option.ne_none_iff_exists'.mp h
    have hanswer := cleanerFor?_of_fileName? charset policy hn
    refine ⟨fun d => ?_, fun t ht => ?_⟩
    · rw [cleanerFor?_of_fileName? charset policy (Path.fileName?_after_slash hn d), hanswer]
    · rw [cleanerFor?_of_fileName? charset policy (Path.fileName?_append hn ht), hanswer]

/-- Two dots before the extension, directories and dots around the name; a name of an extension only
and one that is not UTF-8. -/
theorem selection_by_last_name_decorated :
    let name : Text := ['.', '.', 'J', 'a', 'v', 'A']
    let p : Path := Utf8.encode name
    let bare : Path := Utf8.encode ['.', 'j', 'a', 'v', 'a']
    let broken : Path := 0xFF :: bare
    p.fileName? = some p ∧ IsSourceName name ∧
      cleanerFor? .latin1 .abort p = some (.source { charset := .latin1 }) ∧
      cleanerFor? .latin1 .abort (slash :: p) = some (.source { charset := .latin1 }) ∧
      cleanerFor? .latin1 .abort ([dot, dot] ++ slash :: (p ++ [slash, slash, dot])) =
        some (.source { charset := .latin1 }) ∧
      cleanerFor? .latin1 .abort bare = none ∧
      cleanerFor? .latin1 .abort broken = none ∧
      cleanerFor? .latin1 .abort (p ++ [slash, dot, dot]) = none := by
  intro name p bare broken
  obtain ⟨hsame, hnone, -, hunnamed, hbroken, hnamed, haround⟩ :=
    selection_by_last_name .latin1 .abort
  have hp : p.fileName? = some p := by decide
  have hname : IsSourceName name :=
    ⟨['.'], ['J', 'a', 'v', 'A'], by simp, rfl, anyCase_sourceExtension.mp (by decide)⟩
  have hbare : ¬ IsSourceName ['.', 'j', 'a', 'v', 'a'] := by
    rintro ⟨stem, e, hstem, h, -⟩
    obtain ⟨c, s, rfl⟩ := List.exists_cons_of_ne_nil hstem
    have hmem : '.' ∈ ['j', 'a', 'v', 'a'] := by
      rw [(List.cons.inj h).2]
      exact List.mem_append_right s List.mem_cons_self
    exact absurd hmem (by decide)
  have hpick := (hnamed p name hp).2.1.mpr hname
  have hafter := (haround p (by decide)).2 [slash, slash, dot] (.bare (.dotted .nil))
  have hbefore := (haround (p ++ [slash, slash, dot]) (by decide)).1 [dot, dot]
  have hroot := hsame (slash :: p) p (by decide)
  refine ⟨hp, hname, hpick, hroot.trans hpick, hbefore.trans (hafter.trans hpick), ?_, ?_, ?_⟩
  · exact (hnamed bare _ (by decide)).2.2.mpr ⟨by decide, hbare⟩
  · refine hbroken broken broken (by decide) fun t ht => ?_
    have hdecode := Utf8.decode?_eq_some_iff.mpr ht
    rw [Utf8.decode?, Piece.cut] at hdecode
    cases hdecode
  · refine hunnamed _ ((hnone _).mpr (.inl ⟨by decide, p ++ [slash], [], ?_, .inr ?_, .nil⟩))
    · simp
    · exact List.getLast?_concat

end Selection

end Unstamp
