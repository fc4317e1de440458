import Unstamp.Proofs.Cleaner.CommentLines

/-! What a line filter leaves of a line that it could not write. -/
namespace Unstamp
variable {σ : Type}

namespace Buffer
variable {w w' : Buffer σ} {data : Bytes} {fault : IoFault}

private theorem writeAll_of_le_room (h : data.length ≤ w.room) (hc : data.length < capacity) :
    w.writeAll data = (.ok (), w.append data) := by
  rw [writeAll, place, if_neg (Nat.not_lt.mpr h), if_neg (Nat.not_le.mpr hc), ite_self]

private theorem empty_of_write_error {s : Sink σ} (h : w.sink.write w.waiting = (.error fault, s))
    (hne : w.waiting ≠ []) : w.empty = (.error fault, { w with sink := s }) := by
  rw [empty, Sink.pour_of_write_error h hne]

private theorem writeAll_of_full (hroom : w.room = 0) (hne : data ≠ [])
    (h : w.empty = (.error fault, w')) :
    w.writeAll data = (.error fault, w') := by
  have hpos := List.length_pos_iff.mpr hne
  rw [writeAll, hroom, if_neg (Nat.not_lt_zero _), if_pos hpos, h]

private theorem place_error (h : w.place data = (.error fault, w')) :
    capacity ≤ data.length ∧ w'.waiting = w.waiting := by
  rw [place] at h
  split at h
  · rename_i hc
    obtain ⟨-, rfl⟩ := Prod.mk.inj h
    exact ⟨hc, rfl⟩
  · cases h

private theorem place_ok (h : w.place data = (.ok (), w')) :
    (capacity ≤ data.length ∧ w'.waiting = w.waiting) ∨
      (data.length < capacity ∧ w' = w.append data) := by
  rw [place] at h
  split at h
  · rename_i hc
    obtain ⟨-, rfl⟩ := Prod.mk.inj h
    exact .inl ⟨hc, rfl⟩
  · rename_i hc
    cases h
    exact .inr ⟨Nat.lt_of_not_le hc, rfl⟩

private theorem waiting_of_room (h : capacity ≤ w.room) : w.waiting = [] := by
  apply List.eq_nil_of_length_eq_zero
  have hpos : 0 < capacity := by decide
  unfold room at h
  omega

private theorem waiting_of_empty (h : w.empty = (.ok (), w')) : w'.waiting = [] := by
  have hr := w.empty_spec.2.2
  rw [h] at hr
  exact hr.mp rfl

/-- A write fails before anything of it is received, or straight at the sink, when nothing waits. -/
private theorem writeAll_error (h : w.writeAll data = (.error fault, w')) :
    w'.received = w.received ∨ (capacity ≤ data.length ∧ w'.waiting = []) := by
  rw [writeAll] at h
  split at h
  · cases h
  split at h
  · split at h
    · rename_i he
      cases h
      have hw := w.empty_spec.2.1
      rw [he] at hw
      exact .inl hw
    · rename_i he
      obtain ⟨hc, hw⟩ := place_error h
      exact .inr ⟨hc, hw.trans (waiting_of_empty he)⟩
  · rename_i hlt hle
    obtain ⟨hc, hw⟩ := place_error h
    refine .inr ⟨hc, hw.trans (waiting_of_room ?_)⟩
    omega

/-- There is room after a write that succeeds, unless it took up just the room that was left. -/
private theorem room_of_writeAll (h : w.writeAll data = (.ok (), w')) :
    0 < w'.room ∨ (data.length = w.room ∧ data.length < capacity) := by
  have hpos : 0 < capacity := by decide
  rw [writeAll] at h
  split at h
  · rename_i hlt
    cases h
    left
    unfold room append at *
    rw [List.length_append]
    omega
  split at h
  · left
    split at h
    · cases h
    · rename_i he
      have hw := waiting_of_empty he
      rcases place_ok h with ⟨-, hw'⟩ | ⟨hc, rfl⟩
      · rw [room, hw', hw]
        exact hpos
      · simp only [room, append, hw, List.nil_append]
        omega
  · rename_i hlt hle
    rcases place_ok h with ⟨hc, hw⟩ | ⟨hc, -⟩
    · left
      rw [room, hw, ← room]
      omega
    · right
      omega

end Buffer

namespace CommentLines

/-- A line that is written, and the buffer that it finds. -/
structure Attempt (σ : Type) where
  buffer : Buffer σ
  line : Text

namespace Attempt

def body (a : Attempt σ) : Bytes :=
  Utf8.encode a.line

def after (a : Attempt σ) : Buffer σ :=
  (writeLine a.buffer a.line).2

def fails (a : Attempt σ) : Bool :=
  match (writeLine a.buffer a.line).1 with
  | .ok () => false
  | .error _ => true

def left (a : Attempt σ) : Bytes :=
  a.after.received.drop a.buffer.received.length

/-- The line takes up just the room left in a buffer in which something waits. -/
def Fills (a : Attempt σ) : Prop :=
  a.body ≠ [] ∧ a.body.length = a.buffer.room ∧ a.body.length < Buffer.capacity

/-- The line is as long as the buffer or longer, and the sink took more than it had to take before,
which is a first part of the line. -/
def Tears (a : Attempt σ) : Prop :=
  Buffer.capacity ≤ a.body.length ∧ a.buffer.received.length < a.after.sink.written.length

variable {a : Attempt σ} {w : Buffer σ} {fault : IoFault}

private theorem fails_of_ok (h : writeLine a.buffer a.line = (.ok (), w)) : a.fails = false := by
  rw [fails, h]

private theorem fails_of_error (h : writeLine a.buffer a.line = (.error fault, w)) :
    a.fails = true := by
  rw [fails, h]

private theorem left_of_received {p : Bytes} (h : a.after.received = a.buffer.received ++ p) :
    a.left = p := by
  rw [left, h, List.drop_left]

private theorem received_after (a : Attempt σ) :
    a.after.received = a.buffer.received ++ a.left := by
  obtain ⟨-, ⟨-, hw⟩ | ⟨_, p, -, -, hw⟩⟩ := writeLine_spec a.buffer a.line
  · rw [left_of_received hw]
    exact hw
  · rw [left_of_received hw]
    exact hw

private theorem left_of_not_fails (h : a.fails = false) : a.left = Utf8.encode
    (a.line ++ ['\n']) := by
  obtain ⟨-, ⟨-, hw⟩ | ⟨_, _, he, -⟩⟩ := writeLine_spec a.buffer a.line
  · exact left_of_received hw
  · rw [fails, he] at h
    cases h

private theorem left_prefix (h : a.fails = true) : a.left <+: a.body := by
  obtain ⟨-, ⟨hr, -⟩ | ⟨_, p, -, hp, hw⟩⟩ := writeLine_spec a.buffer a.line
  · rw [fails, hr] at h
    cases h
  · rw [left_of_received hw]
    exact hp

/-- A lost line leaves nothing, or all of itself in a buffer that it filled up, or a first part that
the sink took. -/
private theorem left_cases (h : a.fails = true) :
    (a.left = [] ∧ ¬ a.Fills) ∨ (a.Fills ∧ a.left = a.body) ∨ (a.Tears ∧ a.left ≠ a.body) := by
  obtain ⟨-, p, -, hw, hr⟩ := a.buffer.received_writeAll a.body
  rcases hbody : a.buffer.writeAll a.body with ⟨⟨fault⟩ | ⟨⟨⟩⟩, w⟩
  · -- The body fails, so that the line feed is not tried.
    have hafter : a.after = w := by rw [after, writeLine, ← body, hbody]
    rw [hbody] at hw hr
    have hleft : a.left = p := left_of_received (hafter ▸ hw)
    have hne : p ≠ a.body := by
      intro he
      cases hr.mpr he
    have hfits : ¬ a.Fills := by
      rintro ⟨-, hfit, hc⟩
      rw [Buffer.writeAll_of_le_room (Nat.le_of_eq hfit) hc] at hbody
      cases hbody
    rw [hleft]
    rcases Buffer.writeAll_error hbody with he | ⟨hc, hn⟩
    · exact .inl ⟨List.append_right_eq_self.mp (hw.symm.trans he), hfits⟩
    · by_cases hp : p = []
      · exact .inl ⟨hp, hfits⟩
      · refine .inr (.inr ⟨⟨hc, ?_⟩, hne⟩)
        have hpos := List.length_pos_iff.mpr hp
        rw [Buffer.received, hn, List.append_nil] at hw
        rw [hafter, hw, List.length_append]
        omega
  · -- The line feed fails, for which there can be no room.
    rw [hbody] at hw hr
    obtain rfl : p = a.body := hr.mp rfl
    have hline : writeLine a.buffer a.line = w.writeAll [0x0A] := by
      rw [writeLine, ← body, hbody]
      exact congrArg w.writeAll Utf8.encode_feed
    rcases hfeed : w.writeAll [0x0A] with ⟨⟨fault⟩ | ⟨⟨⟩⟩, w'⟩
    · have hafter : a.after = w' := by rw [after, hline, hfeed]
      have hleft : a.left = a.body := by
        rcases Buffer.writeAll_error hfeed with he | ⟨hc, -⟩
        · exact left_of_received (hafter ▸ he.trans hw)
        · exact absurd hc (by decide)
      by_cases hb : a.body = []
      · exact .inl ⟨hleft.trans hb, fun hf => hf.1 hb⟩
      · rcases Buffer.room_of_writeAll hbody with hroom | ⟨hfit, hc⟩
        · have hone : [(0x0A : UInt8)].length ≤ w.room := hroom
          rw [Buffer.writeAll_of_le_room hone (by decide)] at hfeed
          cases hfeed
        · exact .inr (.inl ⟨⟨hb, hfit, hc⟩, hleft⟩)
    · rw [fails, hline, hfeed] at h
      cases h

private theorem left_of_fills (h : a.fails = true) (hf : a.Fills) : a.left = a.body := by
  rcases left_cases h with ⟨-, hn⟩ | ⟨-, hb⟩ | ⟨⟨hc, -⟩, -⟩
  · exact absurd hf hn
  · exact hb
  · exact absurd hf.2.2 (Nat.not_lt.mpr hc)

private theorem left_ne_body_of_tears (h : a.fails = true) (ht : a.Tears) : a.left ≠ a.body := by
  rcases left_cases h with ⟨hn, -⟩ | ⟨⟨-, -, hc⟩, -⟩ | ⟨-, hb⟩
  · intro he
    have hpos : 0 < Buffer.capacity := by decide
    have hlen := ht.1
    rw [← he, hn, List.length_nil] at hlen
    omega
  · exact absurd hc (Nat.not_lt.mpr ht.1)
  · exact hb

/-- A line is lost as a whole, but for one that fills up the buffer and one that is torn. -/
private theorem left_ne_nil_iff (h : a.fails = true) : a.left ≠ [] ↔ a.Fills ∨ a.Tears := by
  constructor
  · intro hne
    rcases left_cases h with ⟨hn, -⟩ | ⟨hf, -⟩ | ⟨ht, -⟩
    · exact absurd hn hne
    · exact .inl hf
    · exact .inr ht
  · rintro (hf | ht) hn
    · exact hf.1 ((left_of_fills h hf).symm.trans hn)
    · have hall := a.received_after
      have hlt := ht.2
      rw [hn, List.append_nil] at hall
      rw [← hall, Buffer.received, List.length_append] at hlt
      omega

end Attempt

def attempts (w : Buffer σ) : List Text → List (Attempt σ)
  | [] => []
  | l :: ls => ⟨w, l⟩ :: attempts (writeLine w l).2 ls

private theorem map_line_attempts (w : Buffer σ) (ls : List Text) :
    (attempts w ls).map Attempt.line = ls := by
  induction ls generalizing w with
  | nil => rfl
  | cons l ls ih => rw [attempts, List.map_cons, ih]

private theorem attempts_of_writeLine {w w' : Buffer σ} {l : Text} {r : Except IoFault Unit}
    (h : writeLine w l = (r, w')) (ls : List Text) :
    attempts w (l :: ls) = ⟨w, l⟩ :: attempts w' ls := by
  rw [attempts, h]

private theorem writeLines_of_ok {policy : WritePolicy} {w w' : Buffer σ} {l : Text}
    (h : writeLine w l = (.ok (), w')) (ls : List Text) :
    writeLines policy w (l :: ls) = writeLines policy w' ls := by
  rw [writeLines, h]

private theorem writeLines_of_error {w w' w'' : Buffer σ} {l : Text} {ls : List Text}
    {fault : IoFault}
    {lost : Nat} (h : writeLine w l = (.error fault, w'))
    (hrest : writeLines .bestEffort w' ls = (.ok lost, w'')) :
    writeLines .bestEffort w (l :: ls) = (.ok (lost + 1), w'') := by
  rw [writeLines, h]
  simp only [hrest]

/-- Lines that were written to the end, some of them lost, have left what each of them has left. -/
private theorem writeLines_attempts {policy : WritePolicy} {w w' : Buffer σ} {ls : List Text}
    {lost : Nat}
    (h : writeLines policy w ls = (.ok lost, w')) :
    (attempts w ls).countP Attempt.fails = lost ∧
      w'.received = w.received ++ (attempts w ls).flatMap Attempt.left := by
  induction ls generalizing w w' lost with
  | nil =>
    cases h
    exact ⟨rfl, (List.append_nil _).symm⟩
  | cons l ls ih =>
    have hline := (Attempt.mk w l).received_after
    rw [Attempt.after] at hline
    rw [attempts, List.countP_cons, List.flatMap_cons, ← List.append_assoc, ← hline]
    rw [writeLines] at h
    split at h
    · rename_i w₁ he
      obtain ⟨hlost, hw⟩ := ih h
      rw [he, Attempt.fails_of_ok he]
      exact ⟨hlost, hw⟩
    · rename_i fault w₁ he
      cases policy with
      | abort => cases h
      | bestEffort =>
        simp only at h
        split at h
        · cases h
        · rename_i hrest
          cases h
          obtain ⟨hlost, hw⟩ := ih hrest
          rw [he, Attempt.fails_of_error he]
          exact ⟨congrArg (· + 1) hlost, hw⟩

/-- When nothing is left of the lines that are lost, the others are left, each with its line feed.
-/
private theorem flatMap_left {as : List (Attempt σ)} (h : ∀ a ∈ as, a.fails = true → a.left = []) :
    as.flatMap Attempt.left =
      Utf8.encode (Line.joined ((as.filter fun a => !a.fails).map Attempt.line)) := by
  induction as with
  | nil => rfl
  | cons a as ih =>
    obtain ⟨ha, has⟩ := List.forall_mem_cons.mp h
    rw [List.flatMap_cons, ih has]
    cases hf : a.fails with
    | true => rw [List.filter_cons_of_neg (by simp [hf]), ha hf, List.nil_append]
    | false =>
      rw [List.filter_cons_of_pos (by simp [hf]), Attempt.left_of_not_fails hf,
        ← Utf8.encode_append, List.map_cons, Line.joined, Line.joined, List.flatMap_cons]

/-- Whatever a sink does with the writes it is offered, when a filter reports success the sink holds
what each of the lines kept has left, and as many of them as are reported are lost. A line that is
not lost is left with its line feed. A line that is lost leaves something just if it filled up the
buffer, and then all but its line feed, or if it was torn by the sink, and then a first part.
Without such lines the sink holds all lines but for as many as are reported. -/
theorem clean_ok_left {f : CommentLines} {source : Source} {sink sink' : Sink σ} {b : Bytes}
    {text : Text} {outcome : Outcome} (hs : source.readAll = .ok b)
    (hd : Charset.utf8.decode b = .ok text)
    (h : f.clean source sink = (.ok outcome, sink')) :
    let as := attempts { sink } (f.kept text)
    ∃ dropped lost : Nat, outcome = .filtered dropped lost ∧
      as.map Attempt.line = f.kept text ∧ as.countP Attempt.fails = lost ∧
      sink'.written = sink.written ++ as.flatMap Attempt.left ∧
      (∀ a ∈ as, a.fails = false → a.left = Utf8.encode (a.line ++ ['\n'])) ∧
      (∀ a ∈ as, a.fails = true → (a.left ≠ [] ↔ a.Fills ∨ a.Tears) ∧
        (a.Fills → a.left = Utf8.encode a.line) ∧
        (a.Tears → a.left <+: Utf8.encode a.line ∧ a.left ≠ Utf8.encode a.line)) ∧
      ((∀ a ∈ as, a.fails = true → ¬ a.Fills ∧ ¬ a.Tears) →
        ∃ ls, ls.Sublist (f.kept text) ∧ ls.length + lost = (f.kept text).length ∧
          sink'.written = sink.written ++ Utf8.encode (Line.joined ls)) := by
  intro as
  rw [clean_of_readAll hs hd] at h
  obtain ⟨lost, w, s, hlines, ho, hflush, -, hw⟩ := writeLines_of_filter_ok h
  obtain ⟨hlost, hleft⟩ := writeLines_attempts hlines
  have hmap : as.map Attempt.line = f.kept text := map_line_attempts { sink } (f.kept text)
  have hwritten : sink'.written = sink.written ++ as.flatMap Attempt.left := by
    have hsame := s.written_flush
    rw [hflush] at hsame
    rw [hsame, hw, hleft, Buffer.received, List.append_nil]
  refine ⟨_, lost, ho, hmap, hlost, hwritten, fun a _ => Attempt.left_of_not_fails, ?_, ?_⟩
  · intro a _ hf
    exact ⟨Attempt.left_ne_nil_iff hf, Attempt.left_of_fills hf,
      fun ht => ⟨Attempt.left_prefix hf, Attempt.left_ne_body_of_tears hf ht⟩⟩
  · intro hwhole
    have hnothing : ∀ a ∈ as, a.fails = true → a.left = [] := by
      intro a ha hf
      have hneither := not_or.mpr (hwhole a ha hf)
      rw [← Attempt.left_ne_nil_iff hf] at hneither
      exact Decidable.of_not_not hneither
    have hsub : ((as.filter fun a => !a.fails).map Attempt.line).Sublist (f.kept text) :=
      hmap ▸ List.filter_sublist.map Attempt.line
    refine ⟨_, hsub, ?_, hwritten.trans (congrArg (sink.written ++ ·) (flatMap_left hnothing))⟩
    have hcount := as.length_eq_countP_add_countP Attempt.fails
    simp only [Bool.not_eq_true, Bool.decide_eq_false] at hcount
    have hlen := congrArg List.length hmap
    rw [List.length_map] at hlen
    rw [List.length_map, ← List.countP_eq_length_filter, ← hlen, hcount, Nat.add_comm]
    exact congrArg (· + _) hlost.symm

def lateDevice : Device Bool where
  write ready data := if ready then .took data.length true else .failed (.device "busy") true
  flush ready := (.ok (), ready)

private theorem unfailing_late (deeds : List Deed) :
    Sink.Unfailing { device := lateDevice, state := true, deeds } := by
  refine ⟨(· = true), ⟨?_, ?_⟩, rfl⟩
  · rintro _ rfl b data
    exact ⟨data.length, true, rfl, rfl⟩
  · rintro _ rfl
    exact ⟨true, rfl, rfl⟩

private theorem encode_replicate (n : Nat) :
    Utf8.encode (List.replicate n 'v') = List.replicate n 0x76 := by
  rw [Utf8.encode, List.flatMap_replicate]
  exact List.flatten_replicate_singleton

/-- The second line fills up the buffer, and its line feed finds the sink failing, though the sink
takes and fails writes only as a whole. The line counts as lost, and all of it is written, with the
third line right behind it. -/
theorem clean_ok_left_of_filled :
    let text := Line.joined [['a'], List.replicate (Buffer.capacity - 2) 'v', ['b']]
    let f : CommentLines := { policy := .bestEffort }
    let source := Source.whole (Utf8.encode text)
    let sink : Sink Bool := { device := lateDevice, state := false }
    source.readAll = .ok (Utf8.encode text) ∧
      Charset.utf8.decode (Utf8.encode text) = .ok text ∧
      ∃ sink', f.clean source sink = (.ok (.filtered 0 1), sink') ∧
        sink'.written =
          [0x61, 0x0A] ++ List.replicate (Buffer.capacity - 2) 0x76 ++ [0x62, 0x0A] := by
  have hn : 2 + (Buffer.capacity - 2) = Buffer.capacity := rfl
  generalize Buffer.capacity - 2 = n at hn ⊢
  intro text f source sink
  have hs := Source.readAll_whole (Utf8.encode text)
  have hd := Charset.decode_of_encode (Charset.encode_utf8 text)
  have hsplit : Line.split text = [['a'], List.replicate n 'v', ['b']] :=
    Line.split_joined (by simp [Line.Bare])
  have hkept : f.kept text = [['a'], List.replicate n 'v', ['b']] := by
    rw [kept, hsplit]
    cases n <;> rfl
  let begun : Buffer Bool := { sink, waiting := [0x61, 0x0A] }
  let full : Buffer Bool :=
    { sink := { sink with state := true }, waiting := begun.waiting ++ List.replicate n 0x76 }
  have hbegun : begun.room = n := by
    rw [Buffer.room, ← hn]
    exact Nat.add_sub_cancel_left 2 n
  have hlen : (List.replicate n (0x76 : UInt8)).length = n := List.length_replicate
  have hfirst : writeLine { sink } ['a'] = (.ok (), begun) := rfl
  have hsecond : writeLine begun (List.replicate n 'v') = (.error (.device "busy"), full) := by
    have hbody : begun.writeAll (List.replicate n 0x76) =
        (.ok (), { sink, waiting := full.waiting }) :=
      Buffer.writeAll_of_le_room (Nat.le_of_eq (hlen.trans hbegun.symm)) (by rw [hlen]; omega)
    have hempty : Buffer.empty { sink, waiting := full.waiting } =
        (.error (.device "busy"), full) :=
      Buffer.empty_of_write_error rfl (List.cons_ne_nil _ _)
    have hroom : Buffer.room { sink, waiting := full.waiting } = 0 := by
      rw [Buffer.room, List.length_append, hlen]
      exact Nat.sub_eq_zero_of_le (Nat.le_of_eq hn.symm)
    rw [writeLine, encode_replicate, hbody]
    exact Buffer.writeAll_of_full hroom (List.cons_ne_nil _ _) hempty
  obtain ⟨w, hthird, hw⟩ := writeLine_of_unfailing (w := full) (unfailing_late []) ['b']
  obtain ⟨w', hflush⟩ := Buffer.flush_of_unfailing hw
  have hlines : writeLines f.policy { sink } (f.kept text) = (.ok 1, w) := by
    rw [hkept, writeLines_of_ok hfirst]
    exact writeLines_of_error hsecond (writeLines_of_ok hthird [])
  have h : f.clean source sink = (.ok (.filtered 0 1), w'.sink) := by
    rw [clean_of_readAll hs hd, filter_of_writeLines hlines hflush, hkept, hsplit]
    rfl
  have has : attempts { sink } (f.kept text) =
      [⟨{ sink }, ['a']⟩, ⟨begun, List.replicate n 'v'⟩, ⟨full, ['b']⟩] := by
    rw [hkept, attempts_of_writeLine hfirst, attempts_of_writeLine hsecond,
      attempts_of_writeLine hthird, attempts]
  obtain ⟨_, _, -, -, -, hwritten, hwhole, hlost, -⟩ := clean_ok_left hs hd h
  rw [has] at hwritten hwhole hlost
  have ha : (Attempt.mk { sink } ['a']).left = [0x61, 0x0A] :=
    hwhole _ (by simp) (Attempt.fails_of_ok hfirst)
  have hv : (Attempt.mk begun (List.replicate n 'v')).left = List.replicate n 0x76 := by
    have hfills : (Attempt.mk begun (List.replicate n 'v')).Fills := by
      rw [Attempt.Fills, Attempt.body, encode_replicate, hlen, hbegun]
      refine ⟨List.ne_nil_of_length_pos ?_, rfl, by omega⟩
      rw [hlen]
      have hpos : 2 < Buffer.capacity := by decide
      omega
    rw [← encode_replicate]
    exact (hlost _ (by simp) (Attempt.fails_of_error hsecond)).2.1 hfills
  have hb : (Attempt.mk full ['b']).left = [0x62, 0x0A] :=
    hwhole _ (by simp) (Attempt.fails_of_ok hthird)
  refine ⟨hs, hd, w'.sink, h, ?_⟩
  rw [hwritten, List.flatMap_cons, List.flatMap_cons, List.flatMap_singleton, ha, hv, hb,
    List.append_assoc]
  rfl

/-- A line as long as the buffer is torn: the sink takes a first part of it, has no room for the
rest, and takes the next line right behind that part. This is not what any of the two lines left out
would leave. -/
theorem clean_ok_torn_line :
    let text := Line.joined [List.replicate Buffer.capacity 'v', ['b']]
    let f : CommentLines := { policy := .bestEffort }
    let sink := Limits.sink { budget := some 8190, chunk := some 5000 }
    ∃ sink', f.clean (Source.whole (Utf8.encode text)) sink = (.ok (.filtered 0 1), sink') ∧
      sink'.written = List.replicate 5000 0x76 ++ [0x62, 0x0A] ∧
      ¬ ∃ ls, ls.Sublist (f.kept text) ∧ ls.length + 1 = (f.kept text).length ∧
        sink'.written = sink.written ++ Utf8.encode (Line.joined ls) := by
  intro text f sink
  have hs := Source.readAll_whole (Utf8.encode text)
  have hd := Charset.decode_of_encode (Charset.encode_utf8 text)
  have hsplit : Line.split text = [List.replicate Buffer.capacity 'v', ['b']] :=
    Line.split_joined (by simp [Line.Bare])
  have hkept : f.kept text = [List.replicate Buffer.capacity 'v', ['b']] := by
    rw [kept, hsplit]
    rfl
  let torn (data : Bytes) : Sink Nat :=
    { sink with state := 5000, deeds := [.took (data.take 5000)] }
  have htorn {data : Bytes} (h : data.length = Buffer.capacity) :
      sink.writeAll data = (.error (.device "sink full"), torn data) := by
    have hfirst : sink.write data = (.ok 5000, torn data) := by
      simp [Sink.write, sink, Limits.sink, Limits.device, Limits.take, h, Buffer.capacity,
        Reply.settled, torn]
    have hlen : (data.drop 5000).length = 3192 := by
      rw [List.length_drop, h]
      rfl
    have hsecond : (torn data).write (data.drop 5000) =
        (.error (.device "sink full"), torn data) := by
      simp only [Sink.write, torn, sink, Limits.sink, Limits.device, Limits.take, hlen]
      rfl
    rw [Sink.writeAll, Sink.pour_of_write hfirst (List.ne_nil_of_length_pos (h ▸ by decide)),
      Sink.pour_of_write_error hsecond (List.ne_nil_of_length_pos (hlen ▸ by decide))]
  have hlen : (List.replicate Buffer.capacity (0x76 : UInt8)).length = Buffer.capacity :=
    List.length_replicate
  have hlong : writeLine { sink } (List.replicate Buffer.capacity 'v') =
      (.error (.device "sink full"), { sink := torn (List.replicate Buffer.capacity 0x76) }) := by
    rw [writeLine, encode_replicate]
    simp [Buffer.writeAll, Buffer.room, Buffer.place, htorn hlen]
  generalize hdata : List.replicate Buffer.capacity (0x76 : UInt8) = data at hlong
  have hlast : writeLine { sink := torn data } ['b'] =
      (.ok (), { sink := torn data, waiting := [0x62, 0x0A] }) := rfl
  have hlines : writeLines f.policy { sink } (f.kept text) =
      (.ok 1, { sink := torn data, waiting := [0x62, 0x0A] }) := by
    rw [hkept]
    exact writeLines_of_error hlong (writeLines_of_ok hlast [])
  obtain ⟨w, hflush, hw⟩ :
      ∃ w, Buffer.flush { sink := torn data, waiting := [0x62, 0x0A] } = (.ok (), w) ∧
        w.sink.written = data.take 5000 ++ [0x62, 0x0A] := by
    simp [Buffer.flush, Buffer.empty, Sink.pour, Sink.write, Sink.flush, torn, sink, Limits.sink,
      Limits.device, Limits.take, Reply.settled, Sink.written, Deed.bytes]
  have hwritten : w.sink.written = List.replicate 5000 0x76 ++ [0x62, 0x0A] := by
    rw [hw, ← hdata, List.take_replicate]
    rfl
  refine ⟨w.sink, ?_, hwritten, ?_⟩
  · rw [clean_of_readAll hs hd, filter_of_writeLines hlines hflush, hkept, hsplit]
    rfl
  · rintro ⟨ls, hsub, hone, he⟩
    rw [hkept] at hsub hone
    obtain ⟨l, rfl⟩ := List.length_eq_one_iff.mp (Nat.succ.inj hone)
    -- Alone, the first line would leave 8193 bytes and the second one 2.
    have hbytes := congrArg List.length (hwritten.symm.trans he)
    change (List.replicate 5000 _ ++ _).length = (Utf8.encode (Line.joined [l])).length at hbytes
    rw [Line.joined, List.flatMap_singleton, Utf8.encode_append, List.length_append,
      List.length_append, List.length_replicate] at hbytes
    rcases List.mem_cons.mp (List.singleton_sublist.mp hsub) with rfl | hl
    · rw [encode_replicate, List.length_replicate] at hbytes
      exact absurd hbytes (by decide)
    · obtain rfl := List.mem_singleton.mp hl
      exact absurd hbytes (by decide)

end CommentLines

end Unstamp
