import Unstamp.Proofs.Cleaner.Canonical
import Unstamp.Proofs.Line.Endings

namespace Unstamp.CommentLines
variable {σ : Type} {f : CommentLines} {source : Source} {sink sink' : Sink σ} {b : Bytes}
  {t : Text} {outcome : Outcome}

/-- Only valid bytes are filtered. -/
private theorem decode_of_clean (hs : source.readAll = .ok b)
    (h : f.clean source sink = (.ok outcome, sink')) :
    ∃ t, Charset.utf8.decode b = .ok t := by
  rw [clean, hs] at h
  simp only at h
  split at h
  · cases h
  · exact ⟨_, by assumption⟩

/-- Marked lines are dropped and the others written, each with a line feed. -/
private theorem clean_of_decode (hs : source.readAll = .ok b) (hd : Charset.utf8.decode b = .ok t)
    (hk : sink.Unfailing) :
    ∃ sink', f.clean source sink =
        (.ok (.filtered ((Line.split t).countP (Line.isMarked f.marker)) 0), sink') ∧
      sink'.written = sink.written ++ Utf8.encode (Line.joined (f.kept t)) := by
  obtain ⟨sink', hc, hw⟩ := f.filter_of_unfailing t hk
  have hdropped : (Line.split t).length - (f.kept t).length =
      (Line.split t).countP (Line.isMarked f.marker) := by
    rw [← f.marked_add_kept t, Nat.add_sub_cancel]
  rw [hdropped, ← clean_of_readAll hs hd] at hc
  exact ⟨sink', hc, hw⟩

/-- A filter drops the lines that start with its marker and writes the others with a line feed each.
The lines of the text stand between its line feeds, after each carriage return and line feed
together, and then each carriage return alone, is replaced by one. -/
theorem clean_pieces (f : CommentLines) (t : Text) (hs : source.readAll = .ok (Utf8.encode t))
    (hk : sink.Unfailing) :
    ∃ sink', f.clean source sink =
        (.ok (.filtered ((Line.pieces (Line.uniform t)).countP (Line.isMarked f.marker)) 0),
          sink') ∧
      sink'.written = sink.written ++
        Utf8.encode (((Line.pieces (Line.uniform t)).filter fun l =>
          !Line.isMarked f.marker l).flatMap (· ++ ['\n'])) := by
  have hd : Charset.utf8.decode (Utf8.encode t) = .ok t :=
    Charset.decode_of_encode (Charset.encode_utf8 t)
  rw [← Line.split_eq_pieces]
  exact clean_of_decode hs hd hk

/-- A text in which all three endings stand, one after another in places, written byte by byte. -/
theorem clean_pieces_mixed :
    let f : CommentLines := { policy := .bestEffort }
    let t : Text := "#x\r\r\n#\na\rb".toList
    let source : Source := .whole (Utf8.encode t)
    let sink : Sink Nat := Limits.sink { chunk := some 1 }
    source.readAll = .ok (Utf8.encode t) ∧ sink.Unfailing ∧
      ∃ sink', f.clean source sink = (.ok (.filtered 2 0), sink') ∧
        sink'.written = Utf8.encode "\na\nb\n".toList := by
  intro f t source sink
  have hs : source.readAll = .ok (Utf8.encode t) := Source.readAll_whole _
  have hk : sink.Unfailing := Sink.unfailing_of_limits rfl (by decide) rfl
  obtain ⟨sink', hc, hw⟩ := clean_pieces f t hs hk
  have hlines : Line.pieces (Line.uniform t) = [['#', 'x'], [], ['#'], ['a'], ['b']] := by
    rw [← Line.split_eq_pieces]
    decide
  rw [hlines] at hc hw
  exact ⟨hs, hk, sink', hc, hw⟩

/-- What a filter has written is filtered as it is, and nothing is dropped from it. -/
private theorem clean_of_joined_kept (f : CommentLines) (t : Text)
    (hs : source.readAll = .ok (Utf8.encode (Line.joined (f.kept t)))) (hk : sink.Unfailing) :
    ∃ sink', f.clean source sink = (.ok (.filtered 0 0), sink') ∧
      sink'.written = sink.written ++ Utf8.encode (Line.joined (f.kept t)) := by
  have hd := Charset.decode_of_encode (Charset.encode_utf8 (Line.joined (f.kept t)))
  obtain ⟨sink', hc, hw⟩ := clean_of_decode (f := f) hs hd hk
  have hnone : (Line.split (Line.joined (f.kept t))).countP (Line.isMarked f.marker) = 0 := by
    rw [Line.split_joined fun l => bare_of_mem_kept, List.countP_eq_zero]
    intro l hl
    simpa using (List.mem_filter.mp hl).2
  rw [hnone] at hc
  rw [Cleaner.kept_joined_kept] at hw
  exact ⟨sink', hc, hw⟩

/-- A filter leaves valid bytes as they are just if their text is in the form that it writes. -/
theorem clean_self_iff (hs : source.readAll = .ok b) (hk : sink.Unfailing) :
    (∃ outcome sink', f.clean source sink = (.ok outcome, sink') ∧
        sink'.written = sink.written ++ b) ↔
      ∃ t, Charset.utf8.decode b = .ok t ∧ Line.Canonical f.marker t := by
  constructor
  · rintro ⟨outcome, sink', hc, hw⟩
    obtain ⟨t, hd⟩ := decode_of_clean hs hc
    obtain ⟨sink'', hc', hw'⟩ := clean_of_decode (f := f) hs hd hk
    obtain rfl : sink' = sink'' := congrArg Prod.snd (hc.symm.trans hc')
    have hb : Utf8.encode (Line.joined (f.kept t)) = b :=
      List.append_cancel_left (hw'.symm.trans hw)
    exact ⟨t, hd, (encode_joined_kept_eq_iff hd).mp hb⟩
  · rintro ⟨t, hd, ht⟩
    obtain ⟨sink', hc, hw⟩ := clean_of_decode (f := f) hs hd hk
    rw [(encode_joined_kept_eq_iff hd).mpr ht] at hw
    exact ⟨_, sink', hc, hw⟩

/-- A filter tells texts apart by their lines alone. -/
private theorem clean_of_written (w : Line.Written) (hw : w.Legible)
    (hs : source.readAll = .ok (Utf8.encode w.text)) (hk : sink.Unfailing) :
    ∃ sink', f.clean source sink =
        (.ok (.filtered (w.lines.countP (Line.isMarked f.marker)) 0), sink') ∧
      sink'.written = sink.written ++
        Utf8.encode (Line.joined (w.lines.filter fun l => !Line.isMarked f.marker l)) := by
  have hd := Charset.decode_of_encode (Charset.encode_utf8 w.text)
  rw [← hw.split_text]
  exact clean_of_decode hs hd hk

/-- What a filter has written it writes again, and drops nothing. It writes what it has read just if
this is valid UTF-8, has no carriage return, is empty or ends in a line feed, and has no line that
starts with the marker. And texts with the same lines come to the same, however the lines are ended,
and whether the last one is or not. -/
theorem clean_again_lines (f : CommentLines) (hs : source.readAll = .ok b) (hk : sink.Unfailing) :
    (∀ outcome sink₁, f.clean source sink = (.ok outcome, sink₁) →
      ∃ o, sink₁.written = sink.written ++ o ∧
        ∀ {τ : Type} (source' : Source) (sink' : Sink τ), source'.readAll = .ok o →
          sink'.Unfailing →
          ∃ sink₂, f.clean source' sink' = (.ok (.filtered 0 0), sink₂) ∧
            sink₂.written = sink'.written ++ o) ∧
    ((∃ outcome sink₁, f.clean source sink = (.ok outcome, sink₁) ∧
        sink₁.written = sink.written ++ b) ↔
      ∃ t, Charset.utf8.decode b = .ok t ∧ Line.Canonical f.marker t) ∧
    ∀ w w' : Line.Written, w.Legible → w'.Legible → w.lines = w'.lines →
      ∀ {τ τ' : Type} (source source' : Source) (sink : Sink τ) (sink' : Sink τ'),
        source.readAll = .ok (Utf8.encode w.text) → source'.readAll = .ok (Utf8.encode w'.text) →
        sink.Unfailing → sink'.Unfailing →
        ∃ outcome o sink₁ sink₁', f.clean source sink = (.ok outcome, sink₁) ∧
          sink₁.written = sink.written ++ o ∧ f.clean source' sink' = (.ok outcome, sink₁') ∧
          sink₁'.written = sink'.written ++ o := by
  refine ⟨fun outcome sink₁ h => ?_, clean_self_iff hs hk, ?_⟩
  · obtain ⟨t, hd⟩ := decode_of_clean hs h
    obtain ⟨sink₁', hc, hw⟩ := clean_of_decode (f := f) hs hd hk
    obtain rfl : sink₁ = sink₁' := congrArg Prod.snd (h.symm.trans hc)
    exact ⟨_, hw, fun source' sink' hs' hk' => clean_of_joined_kept f t hs' hk'⟩
  · intro w w' hw hw' hlines τ τ' source source' sink sink' hs hs' hk hk'
    obtain ⟨sink₁, hc, ho⟩ := clean_of_written (f := f) w hw hs hk
    obtain ⟨sink₁', hc', ho'⟩ := clean_of_written (f := f) w' hw' hs' hk'
    rw [← hlines] at hc' ho'
    exact ⟨_, _, sink₁, sink₁', hc, ho, hc', ho'⟩

/-- Two texts with the same lines, in which all three endings stand. What comes of them is written
again as it is. -/
theorem clean_again_lines_three_endings :
    let f : CommentLines := {}
    let w : Line.Written := ⟨[("#a".toList, .carriage), ([], .both)], ['b']⟩
    let w' : Line.Written := ⟨[("#a".toList, .feed), ([], .carriage), (['b'], .feed)], []⟩
    let o : Bytes := [0x0A, 0x62, 0x0A]
    let cleaned (b : Bytes) := f.clean (.whole b) Sink.memory
    let Gives (b : Bytes) (outcome : Outcome) : Prop :=
      (cleaned b).1 = .ok outcome ∧ (cleaned b).2.written = o
    w.Legible ∧ w'.Legible ∧ w.lines = w'.lines ∧
      Gives (Utf8.encode w.text) (.filtered 1 0) ∧ Gives (Utf8.encode w'.text) (.filtered 1 0) ∧
      Gives o (.filtered 0 0) := by
  intro f w w' o cleaned Gives
  have hw : w.Legible := by decide
  have hw' : w'.Legible := by decide
  have hlines : w.lines = w'.lines := by decide
  have hwhole (b : Bytes) : (Source.whole b).readAll = .ok b := Source.readAll_whole b
  have hk : Sink.memory.Unfailing := Sink.unfailing_memory
  obtain ⟨sink₁, hc, ho⟩ := clean_of_written (f := f) w hw (hwhole _) hk
  have hcount : w.lines.countP (Line.isMarked f.marker) = 1 := by decide
  have hkept : Utf8.encode (Line.joined (w.lines.filter fun l => !Line.isMarked f.marker l)) =
    o := by
    decide
  rw [hcount] at hc
  rw [hkept] at ho
  obtain ⟨hagain, -, hsame⟩ := clean_again_lines f (hwhole (Utf8.encode w.text)) hk
  obtain ⟨o₁, ho₁, hnext⟩ := hagain _ _ hc
  obtain rfl : o₁ = o := List.append_cancel_left (ho₁.symm.trans ho)
  obtain ⟨sink₂, hc₂, ho₂⟩ := hnext (.whole o) Sink.memory (hwhole o) hk
  obtain ⟨outcome, o', sink₃, sink₃', hc₃, ho₃, hc₃', ho₃'⟩ :=
    hsame w w' hw hw' hlines (.whole _) (.whole _) Sink.memory Sink.memory (hwhole _)
      (hwhole _) hk hk
  obtain ⟨hout, rfl⟩ := Prod.mk.inj (hc.symm.trans hc₃)
  cases hout
  obtain rfl : o' = o := List.append_cancel_left (ho₃.symm.trans ho)
  have hwritten {b : Bytes} {outcome : Outcome} {sink : Sink Unit}
      (h : cleaned b = (.ok outcome, sink)) (hs : sink.written = Sink.memory.written ++ o) :
      (cleaned b).1 = .ok outcome ∧ (cleaned b).2.written = o := by
    rw [h]
    exact ⟨rfl, hs⟩
  exact ⟨hw, hw', hlines, hwritten hc ho, hwritten hc₃' ho₃', hwritten hc₂ ho₂⟩

end Unstamp.CommentLines
