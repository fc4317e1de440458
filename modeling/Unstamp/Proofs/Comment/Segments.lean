import Unstamp.Proofs.Comment.Removal

namespace Unstamp.Comment

inductive Terminator where
  | lf
  | crlf
  | cr
  deriving DecidableEq, Repr

def Terminator.text : Terminator → Text
  | lf => ['\n']
  | crlf => ['\r', '\n']
  | cr => ['\r']

inductive Segment where
  | code (c : Text)
  | block (x : Text)
  | doc (d : Text)
  | line (y : Text) (e : Terminator)
  deriving DecidableEq, Repr

namespace Segment

def text : Segment → Text
  | code c => c
  | block x => ['/', '*'] ++ x ++ ['*', '/']
  | doc d => ['/', '*', '*'] ++ d ++ ['*', '/']
  | line y e => ['/', '/'] ++ y ++ e.text

/-- Whether removal leaves the segment. -/
def stays : Segment → Bool
  | code _ => true
  | doc _ => true
  | block _ => false
  | line _ _ => false

end Segment

inductive Ending where
  | closed
  | openLine (y : Text)
  | openBlock (x : Text)
  deriving DecidableEq, Repr

def Ending.text : Ending → Text
  | closed => []
  | openLine y => ['/', '/'] ++ y
  | openBlock x => ['/', '*'] ++ x

def render (ss : List Segment) (e : Ending) : Text :=
  ss.flatMap Segment.text ++ e.text

def LineBody (y : Text) : Prop :=
  '\r' ∉ y ∧ '\n' ∉ y

def BlockBody (x : Text) : Prop :=
  ¬ ['*'] <+: x ∧ ¬ ['*', '/'] <:+: x

def CodeBody (c : Text) : Prop :=
  ¬ ['/', '/'] <:+: c ∧ ¬ ['/', '*'] <:+: c ∧ ¬ ['/'] <:+ c

/-- The closing slash of documentation is the last character, or code comes after it with which it
opens nothing. -/
def DocSeam : List Segment → Ending → Prop
  | [], e => e = .closed
  | .code (a :: _) :: _, _ => a ≠ '/' ∧ a ≠ '*'
  | _ :: _, _ => False

/-- The segment is what it is meant to be, also where it meets those after it. -/
def Segment.Fits (ss : List Segment) (e : Ending) : Segment → Prop
  | code c => CodeBody c
  | block x => x ≠ [] ∧ BlockBody x
  | doc d => '/' ∉ d ∧ DocSeam ss e
  | line y t => LineBody y ∧ (t = .cr → ¬ ['\n'] <+: render ss e)

def Ending.Fits : Ending → Prop
  | closed => True
  | openLine y => LineBody y
  | openBlock x => BlockBody x

/-- Segments that are read from their text as they were written. -/
def WellFormed : List Segment → Ending → Prop
  | [], e => e.Fits
  | s :: ss, e => s.Fits ss e ∧ WellFormed ss e

instance (y : Text) : Decidable (LineBody y) :=
  inferInstanceAs (Decidable (_ ∧ _))

instance (x : Text) : Decidable (BlockBody x) :=
  inferInstanceAs (Decidable (_ ∧ _))

instance (c : Text) : Decidable (CodeBody c) :=
  inferInstanceAs (Decidable (_ ∧ _ ∧ _))

instance : (ss : List Segment) → (e : Ending) → Decidable (DocSeam ss e)
  | [], e => inferInstanceAs (Decidable (e = .closed))
  | .code (a :: _) :: _, _ => inferInstanceAs (Decidable (a ≠ '/' ∧ a ≠ '*'))
  | .code [] :: _, _ | .block _ :: _, _ | .doc _ :: _, _ | .line _ _ :: _, _ => .isFalse id

instance (ss : List Segment) (e : Ending) : (s : Segment) → Decidable (s.Fits ss e)
  | .code c => inferInstanceAs (Decidable (CodeBody c))
  | .block x => inferInstanceAs (Decidable (x ≠ [] ∧ BlockBody x))
  | .doc d => inferInstanceAs (Decidable ('/' ∉ d ∧ DocSeam ss e))
  | .line y t => inferInstanceAs (Decidable (LineBody y ∧ (t = .cr → ¬ ['\n'] <+: render ss e)))

instance : (e : Ending) → Decidable e.Fits
  | .closed => inferInstanceAs (Decidable True)
  | .openLine y => inferInstanceAs (Decidable (LineBody y))
  | .openBlock x => inferInstanceAs (Decidable (BlockBody x))

instance WellFormed.decide : (ss : List Segment) → (e : Ending) → Decidable (WellFormed ss e)
  | [], e => inferInstanceAs (Decidable e.Fits)
  | s :: ss, e =>
    have := WellFormed.decide ss e
    inferInstanceAs (Decidable (s.Fits ss e ∧ WellFormed ss e))

private theorem render_cons (s : Segment) (ss : List Segment) (e : Ending) :
    render (s :: ss) e = s.text ++ render ss e := by
  rw [render, List.flatMap_cons, List.append_assoc]
  rfl

section Bodies
variable {c x y r : Text}

private theorem remove_code (h : CodeBody c) (r : Text) : remove (c ++ r) = c ++ remove r := by
  obtain ⟨hline, hblock, hend⟩ := h
  apply remove_append_copy
  intro s hs hsuf
  obtain ⟨a, s, rfl⟩ := List.exists_cons_of_ne_nil hs
  by_cases ha : a = '/'
  · subst ha
    cases s with
    | nil => exact absurd hsuf hend
    | cons b s =>
      have hb (d : Char) (hd : ¬ ['/', d] <:+: c) : b ≠ d := by
        rintro rfl
        exact hd ((List.prefix_append ['/', b] s).isInfix.trans hsuf.isInfix)
      exact not_opens_slash (hb '/' hline) (hb '*' hblock) (s ++ r)
  · exact not_opens_of_ne ha (s ++ r)

private theorem after_line (h : LineBody y) (r : Text) : after lineEnd
    (y ++ r) = after lineEnd r := by
  apply after_append
  intro s hs hsuf
  obtain ⟨a, s, rfl⟩ := List.exists_cons_of_ne_nil hs
  have ha : a ∈ y := hsuf.mem List.mem_cons_self
  exact lineEnd_of_ne (ne_of_mem_of_not_mem ha h.1) (ne_of_mem_of_not_mem ha h.2) (s ++ r)

private theorem after_terminator {t : Terminator} (h : t = .cr → ¬ ['\n'] <+: r) :
    after lineEnd (t.text ++ r) = r := by
  cases t with
  | lf => exact after_of_width (List.cons_ne_nil _ _) rfl
  | crlf => exact after_of_width (List.cons_ne_nil _ _) rfl
  | cr =>
    apply after_of_width (List.cons_ne_nil _ _)
    simp [lineEnd, List.cons_prefix_cons, h rfl]

/-- A star at the end of the body is no part of the delimiter. -/
private theorem after_block (h : BlockBody x) (hr : ¬ ['/'] <+: r) :
    after blockEnd (x ++ r) = after blockEnd r := by
  apply after_append
  intro s hs hsuf
  rw [blockEnd, if_neg]
  intro hp
  obtain ⟨a, s, rfl⟩ := List.exists_cons_of_ne_nil hs
  rw [List.cons_append, List.cons_prefix_cons] at hp
  obtain ⟨rfl, hp⟩ := hp
  cases s with
  | nil => exact hr hp
  | cons b s =>
    rw [List.cons_append, List.cons_prefix_cons] at hp
    obtain ⟨rfl, -⟩ := hp
    exact h.2 ((List.prefix_append ['*', '/'] s).isInfix.trans hsuf.isInfix)

end Bodies

/-- A plain block is taken whole. -/
private theorem remove_block_text {x : Text} (hne : x ≠ []) (h : BlockBody x) (r : Text) :
    remove ((Segment.block x).text ++ r) = remove r := by
  have hopen : ¬ ['*'] <+: x ++ ['*', '/'] ++ r := by
    obtain ⟨a, u, rfl⟩ := List.exists_cons_of_ne_nil hne
    intro hp
    obtain ⟨rfl, -⟩ := List.cons_prefix_cons.mp hp
    exact h.1 ⟨u, rfl⟩
  have hclose : after blockEnd (x ++ ['*', '/'] ++ r) = r := by
    rw [List.append_assoc, after_block h (by simp [List.cons_prefix_cons])]
    exact after_of_width (List.cons_ne_nil _ _) rfl
  calc remove ((Segment.block x).text ++ r)
      = remove ('/' :: '*' :: (x ++ ['*', '/'] ++ r)) := by simp [Segment.text]
    _ = remove (after blockEnd (x ++ ['*', '/'] ++ r)) := remove_block hopen
    _ = remove r := by rw [hclose]

/-- A line comment is taken with its terminator. -/
private theorem remove_line_text {y : Text} {t : Terminator} {r : Text} (h : LineBody y)
    (ht : t = .cr → ¬ ['\n'] <+: r) : remove ((Segment.line y t).text ++ r) = remove r := by
  calc remove ((Segment.line y t).text ++ r)
      = remove ('/' :: '/' :: (y ++ (t.text ++ r))) := by simp [Segment.text]
    _ = remove (after lineEnd (y ++ (t.text ++ r))) := remove_line _
    _ = remove r := by rw [after_line h, after_terminator ht]

/-- The closing slash of documentation opens nothing with what comes after it. -/
private theorem DocSeam.not_opens {ss : List Segment} {e : Ending} (h : DocSeam ss e) :
    ¬ Opens ('/' :: render ss e) := by
  match ss, h with
  | [], h =>
    obtain rfl : e = .closed := h
    decide
  | .code (a :: c) :: rest, h =>
    rw [render_cons]
    exact not_opens_slash h.1 h.2 (c ++ render rest e)

/-- Of documentation both delimiters and what is between them are copied. -/
private theorem remove_doc_text {d r : Text} (hd : '/' ∉ d) (h : ¬ Opens ('/' :: r)) :
    remove ((Segment.doc d).text ++ r) = (Segment.doc d).text ++ remove r := by
  have hopen : ¬ Opens ('/' :: '*' :: '*' :: (d ++ '*' :: '/' :: r)) := by
    rw [opens_star]
    exact not_not_intro ⟨_, rfl⟩
  have hbody : '/' ∉ ['*', '*'] ++ d ++ ['*'] := by simp [hd]
  calc remove ((Segment.doc d).text ++ r)
      = remove ('/' :: (['*', '*'] ++ d ++ ['*'] ++ '/' :: r)) := by simp [Segment.text]
    _ = '/' :: (['*', '*'] ++ d ++ ['*'] ++ remove ('/' :: r)) := by
        rw [← remove_append_of_not_mem hbody, remove_copy]
        simpa using hopen
    _ = (Segment.doc d).text ++ remove r := by
        rw [remove_copy h]
        simp [Segment.text]

/-- What removal does to one segment, whatever the next ones are. -/
theorem remove_segment {s : Segment} {ss : List Segment} {e : Ending} (h : s.Fits ss e) :
    remove (s.text ++ render ss e) =
      (if s.stays then s.text else []) ++ remove (render ss e) := by
  cases s with
  | code c => exact remove_code h _
  | block x => exact remove_block_text h.1 h.2 _
  | doc d => exact remove_doc_text h.1 h.2.not_opens
  | line y t => exact remove_line_text h.1 h.2

/-- A comment that is never closed goes to its end. -/
theorem remove_ending {e : Ending} (h : e.Fits) : remove e.text = [] := by
  cases e with
  | closed => exact remove_nil
  | openLine y =>
    have hrest := after_line h []
    rw [List.append_nil, after_nil] at hrest
    exact (remove_line y).trans (congrArg remove hrest)
  | openBlock x =>
    have hrest := after_block h (r := []) (by simp)
    rw [List.append_nil, after_nil] at hrest
    exact (remove_block h.1).trans (congrArg remove hrest)

/-- Removal of what was rendered leaves the code and the documentation as they were written, in
their order. -/
theorem remove_render {ss : List Segment} {e : Ending} (h : WellFormed ss e) :
    remove (render ss e) = (ss.filter Segment.stays).flatMap Segment.text := by
  induction ss with
  | nil => exact remove_ending h
  | cons s ss ih =>
    obtain ⟨hs, hss⟩ := h
    rw [render_cons, remove_segment hs, ih hss, List.filter_cons]
    split
    · rw [List.flatMap_cons]
    · rfl

/-- All kinds of segments: markers inside the comments of another kind, stars beside a delimiter,
the three terminators, and a block that is left open. -/
theorem remove_render_mixed :
    let ss : List Segment := [.code "a/b".toList, .block "//*".toList, .line "/* ".toList .cr,
      .line "x*/".toList .crlf, .doc [], .code "c".toList, .doc "* d *".toList,
      .code " ".toList, .line [] .lf]
    let e : Ending := .openBlock "f//".toList
    WellFormed ss e ∧ remove (render ss e) = "a/b/***/c/*** d **/ ".toList := by
  intro ss e
  have h : WellFormed ss e := by decide
  exact ⟨h, remove_render h⟩

end Unstamp.Comment
