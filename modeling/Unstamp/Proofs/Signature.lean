import Unstamp.Proofs.Charset.Units
import Unstamp.Proofs.Cleaner.Bytewise

namespace Unstamp.Signature
open GeneratedSource (AsciiSignature)
variable {s : Signature}

/-- A signature of ASCII has bytes in every charset, and the lossy view of any bytes, valid or not,
shows it if and only if these bytes stand among them, in UTF-16 at an even place. -/
theorem marks_decodeLossy_iff (hs : AsciiSignature s) (c : Charset) (b : Bytes) :
    ∃ e, c.encode s.text = .ok e ∧
      (s.marks (c.decodeLossy b) = true ↔
        ∃ before after, b = before ++ e ++ after ∧ c.unitWidth ∣ before.length) := by
  refine ⟨_, Charset.encode_ascii c hs.ascii, ?_⟩
  have hspelled := c.spelled_decodeLossy b
  rw [marks_iff, ← hspelled.infix_iff Utf8.spelling_loosely hs.nonempty hs.ascii]
  exact Charset.infix_unitText_iff hs.nonempty hs.ascii

/-- Half a pair before the signature and a byte too many after it do not hide it; its bytes across
two units do not fake it. -/
theorem marks_decodeLossy_among_half_pairs :
    let s : Signature := ⟨['a']⟩
    let c : Charset := .utf16 .big
    AsciiSignature s ∧ s.marks (c.decodeLossy [0xD8, 0x3D, 0, 0x61, 7]) = true ∧
      s.marks (c.decodeLossy [0xD8, 0, 0x61, 0]) = false := by
  intro s c
  have hs : AsciiSignature s := ⟨by decide, by decide⟩
  have hbytes : c.encode s.text = .ok [0, 0x61] := rfl
  refine ⟨hs, ?_, ?_⟩
  · obtain ⟨e, he, hiff⟩ := marks_decodeLossy_iff hs c [0xD8, 0x3D, 0, 0x61, 7]
    cases hbytes.symm.trans he
    exact hiff.mpr ⟨[0xD8, 0x3D], [7], rfl, by decide⟩
  · obtain ⟨e, he, hiff⟩ := marks_decodeLossy_iff hs c [0xD8, 0, 0x61, 0]
    cases hbytes.symm.trans he
    rw [Bool.eq_false_iff]
    intro hm
    obtain ⟨before, after, hb, heven⟩ := hiff.mp hm
    rcases before with _ | ⟨x, _ | ⟨y, _ | ⟨z, r⟩⟩⟩
    · cases hb
    · exact absurd heven (show ¬ 2 ∣ 1 by decide)
    · cases hb
    · have hlen := congrArg List.length hb
      simp only [List.length_append, List.length_cons] at hlen
      omega

end Unstamp.Signature
