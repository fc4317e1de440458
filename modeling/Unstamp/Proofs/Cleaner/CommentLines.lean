import Unstamp.Cleaner.CommentLines
import Unstamp.Proofs.Charset.RoundTrip
import Unstamp.Proofs.Line
import Unstamp.Proofs.Stream.Buffer

namespace Unstamp

namespace Utf8

theorem encode_append (s t : Text) : encode (s ++ t) = encode s ++ encode t :=
  List.flatMap_append

theorem encode_feed : encode ['\n'] = [0x0A] := by decide

/-- A text without a line feed has no byte of one. -/
private theorem not_mem_encode_feed {t : Text} (h : '\n' ∉ t) : 0x0A ∉ encode t :=
  fun hb => h ((mem_encode (by decide)).mp hb)

end Utf8

namespace CommentLines
variable {σ : Type}

def kept (f : CommentLines) (text : Text) : List Text :=
  (Line.split text).filter fun l => !Line.isMarked f.marker l

/-- Bytes that are left of lines when some are lost: of a line all of it and a line feed, or of a
lost line a first part, be it nothing or the whole line, and no line feed. -/
inductive Remains : List Text → Nat → Bytes → Prop where
  | nil : Remains [] 0 []
  | whole (l : Text) {ls : List Text} {lost : Nat} {out : Bytes} (h : Remains ls lost out) :
      Remains (l :: ls) lost (Utf8.encode (l ++ ['\n']) ++ out)
  | part (l : Text) {p : Bytes} (hp : p <+: Utf8.encode l) {ls : List Text} {lost : Nat}
      {out : Bytes} (h : Remains ls lost out) : Remains (l :: ls) (lost + 1) (p ++ out)

private theorem Remains.eq_joined {ls : List Text} {out : Bytes} (h : Remains ls 0 out) :
    out = Utf8.encode (Line.joined ls) := by
  generalize hn : 0 = lost at h
  induction h with
  | nil => rfl
  | whole l h ih =>
    rw [ih hn, ← Utf8.encode_append, Line.joined, Line.joined, List.flatMap_cons]
  | part l hp h ih => cases hn

/-- Just the lines that are not lost have left a line feed. -/
theorem Remains.count_feed {ls : List Text} {lost : Nat} {out : Bytes} (h : Remains ls lost out)
    (hb : ∀ l ∈ ls, Line.Bare l) : out.count 0x0A + lost = ls.length := by
  induction h with
  | nil => rfl
  | whole l h ih =>
    obtain ⟨hl, hls⟩ := List.forall_mem_cons.mp hb
    have hc : (Utf8.encode l).count 0x0A = 0 :=
      List.count_eq_zero.mpr (Utf8.not_mem_encode_feed hl.1)
    have ih := ih hls
    rw [Utf8.encode_append, Utf8.encode_feed, List.count_append, List.count_append, hc,
      List.count_singleton_self, List.length_cons]
    omega
  | @part l p hp ls lost out h ih =>
    obtain ⟨hl, hls⟩ := List.forall_mem_cons.mp hb
    have hc : p.count 0x0A = 0 :=
      List.count_eq_zero.mpr fun hm => Utf8.not_mem_encode_feed hl.1 (hp.subset hm)
    have ih := ih hls
    rw [List.count_append, hc, List.length_cons]
    omega

/-- A line is received with its line feed, or a first part of it without. The line feed is not tried
after a line that failed, and of a line feed that fails there is no part. -/
theorem writeLine_spec (w : Buffer σ) (l : Text) :
    (writeLine w l).2.sink.flushes = w.sink.flushes ∧
      (((writeLine w l).1 = .ok () ∧
          (writeLine w l).2.received = w.received ++ Utf8.encode (l ++ ['\n'])) ∨
        ∃ fault p, (writeLine w l).1 = .error fault ∧ p <+: Utf8.encode l ∧
          (writeLine w l).2.received = w.received ++ p) := by
  obtain ⟨hf, p, hp, hw, hr⟩ := w.received_writeAll (Utf8.encode l)
  rw [writeLine]
  split
  · rename_i fault w₁ he
    rw [he] at hf hw
    exact ⟨hf, .inr ⟨fault, p, rfl, hp, hw⟩⟩
  · rename_i w₁ he
    rw [he] at hf hw hr
    obtain rfl : p = Utf8.encode l := hr.mp rfl
    obtain ⟨hf', q, hq, hw', hr'⟩ := w₁.received_writeAll (Utf8.encode ['\n'])
    refine ⟨hf'.trans hf, ?_⟩
    cases hend : (w₁.writeAll (Utf8.encode ['\n'])).1 with
    | ok =>
      obtain rfl := hr'.mp hend
      refine .inl ⟨rfl, ?_⟩
      rw [hw', hw, Utf8.encode_append, List.append_assoc]
    | error fault =>
      -- A line feed is one byte, so that what was taken of it is all or nothing.
      have hne : q ≠ [0x0A] := by
        rintro rfl
        rw [hr'.mpr rfl] at hend
        cases hend
      have hq : q = [] := by
        rw [Utf8.encode_feed, List.prefix_cons_iff] at hq
        rcases hq with rfl | ⟨t, rfl, ht⟩
        · rfl
        · exact absurd (congrArg (0x0A :: ·) (List.prefix_nil.mp ht)) hne
      subst hq
      refine .inr ⟨fault, _, rfl, List.prefix_rfl, ?_⟩
      rw [hw', hw, List.append_nil]

/-- Lines that were written to the end are received in their order, with as many of them lost as
were counted. -/
private theorem writeLines_ok {policy : WritePolicy} {w w' : Buffer σ} {ls : List Text} {lost : Nat}
    (h : writeLines policy w ls = (.ok lost, w')) :
    w'.sink.flushes = w.sink.flushes ∧ (policy = .abort → lost = 0) ∧
      ∃ out, Remains ls lost out ∧ w'.received = w.received ++ out := by
  induction ls generalizing w w' lost with
  | nil =>
    cases h
    exact ⟨rfl, fun _ => rfl, [], .nil, (List.append_nil _).symm⟩
  | cons l ls ih =>
    obtain ⟨hf, hline⟩ := writeLine_spec w l
    rw [writeLines] at h
    split at h
    · rename_i w₁ he
      rw [he] at hf hline
      obtain ⟨-, hw⟩ | ⟨_, _, hr, -⟩ := hline
      · obtain ⟨hf', hlost, out, ho, hw'⟩ := ih h
        refine ⟨hf'.trans hf, hlost, _, .whole l ho, ?_⟩
        rw [hw', hw, List.append_assoc]
      · cases hr
    · rename_i fault w₁ he
      rw [he] at hf hline
      obtain ⟨hr, -⟩ | ⟨_, p, -, hp, hw⟩ := hline
      · cases hr
      cases policy with
      | abort => cases h
      | bestEffort =>
        simp only at h
        split at h
        · cases h
        · rename_i n w₂ hrest
          cases h
          obtain ⟨hf', -, out, ho, hw'⟩ := ih hrest
          refine ⟨hf'.trans hf, nofun, _, .part l hp ho, ?_⟩
          rw [hw', hw, List.append_assoc]

/-- A filter that succeeds has written its lines and then flushed its sink once. -/
theorem writeLines_of_filter_ok {f : CommentLines} {text : Text} {sink sink' : Sink σ}
    {outcome : Outcome} (h : f.filter text sink = (.ok outcome, sink')) :
    ∃ (lost : Nat) (w : Buffer σ) (s : Sink σ),
      writeLines f.policy { sink } (f.kept text) = (.ok lost, w) ∧
      outcome = .filtered ((Line.split text).length - (f.kept text).length) lost ∧
      s.flush = (.ok (), sink') ∧ s.flushes = w.sink.flushes ∧ s.written = w.received := by
  simp only [filter] at h
  split at h
  · cases h
  rename_i lost w hlines
  split at h
  · cases h
  rename_i w' hflush
  obtain ⟨s, hs, hwritten, hflushes, -⟩ := Buffer.flush_ok hflush
  cases h
  exact ⟨lost, w, s, hlines, rfl, hs, hflushes, hwritten⟩

/-- What the sink holds then is what remains of the lines. -/
private theorem filter_ok {f : CommentLines} {text : Text} {sink sink' : Sink σ} {outcome : Outcome}
    (h : f.filter text sink = (.ok outcome, sink')) :
    ∃ (lost : Nat) (out : Bytes) (s : Sink σ),
      outcome = .filtered ((Line.split text).length - (f.kept text).length) lost ∧
      (f.policy = .abort → lost = 0) ∧ Remains (f.kept text) lost out ∧
      s.flush = (.ok (), sink') ∧ s.flushes = sink.flushes ∧
      s.written = sink.written ++ out := by
  obtain ⟨lost, w, s, hlines, ho, hs, hflushes, hwritten⟩ := writeLines_of_filter_ok h
  obtain ⟨hf, hlost, out, hr, hw⟩ := writeLines_ok hlines
  refine ⟨lost, out, s, ho, hlost, hr, hs, hflushes.trans hf, ?_⟩
  rw [hwritten, hw, Buffer.received, List.append_nil]

theorem marked_add_kept (f : CommentLines) (text : Text) :
    (Line.split text).countP (Line.isMarked f.marker) + (f.kept text).length =
      (Line.split text).length := by
  rw [kept, ← List.countP_eq_length_filter]
  simpa using (List.length_eq_countP_add_countP (Line.isMarked f.marker)).symm

theorem bare_of_mem_kept {f : CommentLines} {text l : Text} (h : l ∈ f.kept text) : Line.Bare l :=
  Line.bare_of_mem_split (List.mem_filter.mp h).1

section Unfailing
variable {w : Buffer σ}

theorem writeLine_of_unfailing (h : w.sink.Unfailing) (l : Text) :
    ∃ w', writeLine w l = (.ok (), w') ∧ w'.sink.Unfailing := by
  obtain ⟨w₁, he, h₁⟩ := Buffer.writeAll_of_unfailing h (Utf8.encode l)
  rw [writeLine, he]
  exact Buffer.writeAll_of_unfailing h₁ (Utf8.encode ['\n'])

private theorem writeLines_of_unfailing (policy : WritePolicy) (h : w.sink.Unfailing)
    (ls : List Text) :
    ∃ w', writeLines policy w ls = (.ok 0, w') ∧ w'.sink.Unfailing := by
  induction ls generalizing w with
  | nil => exact ⟨w, rfl, h⟩
  | cons l ls ih =>
    obtain ⟨w₁, he, h₁⟩ := writeLine_of_unfailing h l
    rw [writeLines, he]
    exact ih h₁

theorem filter_of_writeLines {f : CommentLines} {text : Text} {sink : Sink σ} {lost : Nat}
    {w w' : Buffer σ} (hlines : writeLines f.policy { sink } (f.kept text) = (.ok lost, w))
    (hflush : w.flush = (.ok (), w')) :
    f.filter text sink =
      (.ok (.filtered ((Line.split text).length - (f.kept text).length) lost), w'.sink) := by
  rw [kept] at hlines ⊢
  simp only [filter, hlines, hflush]

/-- Over a sink that does not fail no line is lost. -/
theorem filter_of_unfailing (f : CommentLines) (text : Text) {sink : Sink σ}
    (h : sink.Unfailing) :
    ∃ sink', f.filter text sink =
        (.ok (.filtered ((Line.split text).length - (f.kept text).length) 0), sink') ∧
      sink'.written = sink.written ++ Utf8.encode (Line.joined (f.kept text)) := by
  obtain ⟨w₁, hlines, h₁⟩ := writeLines_of_unfailing (w := { sink }) f.policy h (f.kept text)
  obtain ⟨w₂, hflush⟩ := Buffer.flush_of_unfailing h₁
  have he := filter_of_writeLines hlines hflush
  obtain ⟨lost, out, s, ho, -, hr, hs, -, hw⟩ := filter_ok he
  obtain ⟨-, rfl⟩ := Outcome.filtered.inj ho
  refine ⟨w₂.sink, he, ?_⟩
  have hsame := s.written_flush
  rw [hs] at hsame
  rw [hsame, hw, hr.eq_joined]

end Unfailing

theorem clean_of_readAll {f : CommentLines} {source : Source} {b : Bytes} {text : Text}
    (hs : source.readAll = .ok b) (hd : Charset.utf8.decode b = .ok text) (sink : Sink σ) :
    f.clean source sink = f.filter text sink := by
  rw [clean, hs]
  simp only [hd]

/-- Whatever a sink does with the writes it is offered, when a filter reports success the sink holds
what remains of the lines kept, in their order, and as many line feeds as lines were not lost. The
sink was flushed once, with success, after it took the last byte. Under the policy to abort no line
is lost. -/
theorem clean_ok_remains {f : CommentLines} {source : Source} {sink sink' : Sink σ} {b : Bytes}
    {text : Text} {outcome : Outcome} (hs : source.readAll = .ok b)
    (hd : Charset.utf8.decode b = .ok text)
    (h : f.clean source sink = (.ok outcome, sink')) :
    ∃ (dropped lost : Nat) (out : Bytes), outcome = .filtered dropped lost ∧
      dropped = (Line.split text).countP (Line.isMarked f.marker) ∧
      sink'.written = sink.written ++ out ∧ Remains (f.kept text) lost out ∧
      out.count 0x0A + lost = (f.kept text).length ∧
      (sink'.flushes = sink.flushes + 1 ∧
        ∃ s : Sink σ, s.flush = (.ok (), sink') ∧ s.written = sink'.written) ∧
      (f.policy = .abort → lost = 0 ∧ out = Utf8.encode (Line.joined (f.kept text))) := by
  rw [clean_of_readAll hs hd] at h
  obtain ⟨lost, out, s, ho, hlost, hr, hflush, hflushes, hw⟩ := filter_ok h
  have hwritten := s.written_flush
  have hcount := s.flushes_flush
  rw [hflush] at hwritten hcount
  refine ⟨_, lost, out, ho, ?_, hwritten.trans hw, hr, hr.count_feed fun l => bare_of_mem_kept,
    ⟨hcount.trans (congrArg (· + 1) hflushes), s, hflush, hwritten.symm⟩, ?_⟩
  · have hm := f.marked_add_kept text
    omega
  · intro hp
    obtain rfl := hlost hp
    exact ⟨rfl, hr.eq_joined⟩

/-- A line that fills the buffer goes straight to a sink that is interrupted once, takes three bytes
of it and then fails once. The next line is written behind these. -/
theorem clean_ok_after_lost_line :
    let text := Line.joined [['#'], List.replicate Buffer.capacity 'v', ['b']]
    let f : CommentLines := { policy := .bestEffort }
    let source := Source.whole (Utf8.encode text)
    let sink : Sink Nat :=
      { device :=
          { write := fun n data =>
              match n with
              | 0 => .interrupted (.took 3 1)
              | 1 => .failed (.device "sink full") 2
              | n => .took data.length n
            flush := fun n => (.ok (), n) }
        state := 0 }
    source.readAll = .ok (Utf8.encode text) ∧
      Charset.utf8.decode (Utf8.encode text) = .ok text ∧
      ∃ sink', f.clean source sink = (.ok (.filtered 1 1), sink') ∧
        ∃ out, sink'.written = out ∧ Remains (f.kept text) 1 out ∧ out.count 0x0A = 1 ∧
          sink'.flushes = 1 := by
  intro text f source sink
  have hs : source.readAll = .ok (Utf8.encode text) := Source.readAll_whole _
  have hd : Charset.utf8.decode (Utf8.encode text) = .ok text :=
    Charset.decode_of_encode (Charset.encode_utf8 text)
  have hsplit : Line.split text = [['#'], List.replicate Buffer.capacity 'v', ['b']] :=
    Line.split_joined (by simp [Line.Bare])
  have hkept : f.kept text = [List.replicate Buffer.capacity 'v', ['b']] := by
    rw [kept, hsplit]
    rfl
  obtain ⟨rest, hfull, hrest⟩ : ∃ rest : Bytes, Utf8.encode (List.replicate Buffer.capacity 'v') =
      0x76 :: 0x76 :: 0x76 :: 0x76 :: rest ∧ rest.length + 4 = Buffer.capacity := by
    refine ⟨List.replicate 8188 0x76, ?_, by rw [List.length_replicate]; rfl⟩
    rw [Utf8.encode, List.flatMap_replicate]
    exact List.flatten_replicate_singleton
  let full : Buffer Nat := { sink := { sink with state := 2, deeds := [.took [0x76, 0x76, 0x76]] } }
  have hline : writeLine { sink } (List.replicate Buffer.capacity 'v') =
      (.error (.device "sink full"), full) := by
    rw [writeLine, hfull]
    simp [Buffer.writeAll, Buffer.room, Buffer.place, ← hrest, Sink.writeAll, Sink.pour, Sink.write,
      Reply.settled, sink, full]
  have hlast : writeLine full ['b'] = (.ok (), full.append [0x62, 0x0A]) := rfl
  have hlines : writeLines f.policy { sink } (f.kept text) =
      (.ok 1, full.append [0x62, 0x0A]) := by
    rw [hkept, writeLines, hline]
    simp only [writeLines, hlast, f]
  obtain ⟨w, hflush⟩ : ∃ w, (full.append [0x62, 0x0A]).flush = (.ok (), w) := by
    simp [Buffer.flush, Buffer.empty, Buffer.append, Sink.pour, Sink.write, Sink.flush,
      Reply.settled, full, sink]
  have h : f.clean source sink = (.ok (.filtered 1 1), w.sink) := by
    rw [clean_of_readAll hs hd, filter_of_writeLines hlines hflush, hkept, hsplit]
    rfl
  obtain ⟨_, _, out, ho, -, hw, hr, hc, ⟨hf, -⟩, -⟩ := clean_ok_remains hs hd h
  cases ho
  refine ⟨hs, hd, w.sink, h, out, hw, hr, ?_, hf⟩
  rw [hkept] at hc
  exact Nat.add_right_cancel hc

end CommentLines

end Unstamp
