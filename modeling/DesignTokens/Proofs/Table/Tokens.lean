import DesignTokens.Proofs.Draft.Rediscovery
import DesignTokens.Proofs.Table.Restoring
import DesignTokens.Table.ToData

/-!
# Tokens of a table as they were written

When the entries of a token are written as its templates, the token is written with its type, its
description and its value, and with the other modes among its extensions (`tokenNode_eq`).
-/

namespace DesignTokens.Table

open Outcome Written Discovery

variable {t : Table}

/-- The modes of a token beside the default mode. -/
theorem filter_modes {modes : Members Entry} (h : defaultMode ∉ modes.names) (e : Entry) :
    ((defaultMode, e) :: modes).filter (fun m => m.1 ≠ defaultMode) = modes := by
  rw [List.filter_cons_of_neg (by simp), List.filter_eq_self]
  intro m hm
  simp only [ne_eq, decide_eq_true_eq]
  rintro heq
  exact h (heq ▸ List.mem_map_of_mem hm)

/-- Modes go to the end of the extensions. -/
theorem setMember_modes {ext : Members Data} (hext : modeField ∉ ext.names) (ms : Members Data) :
    (if (ofMembers ms).isEmpty then ofMembers ext
      else setMember (.field "mode") (.object (ofMembers ms)) (ofMembers ext)) =
        ofMembers (withModes ext ms) := by
  cases ms with
  | nil => simp [ofMembers, withModes]
  | cons m ms =>
    rw [if_neg (by simp [ofMembers]), ← modeField,
      setMember_of_none (member?_ofMembers_of_not_mem hext), withModes, ofMembers_append]
    rfl

/-- Extensions stand in a token only when there are some. -/
theorem extensionsMember_eq (ext : Members Data) :
    (if (ofMembers ext).isEmpty then []
      else [(Step.field "$extensions", Written.object (ofMembers ext))]) =
        ofMembers (Members.optional "$extensions" (extensionsData ext)) := by
  cases ext with
  | nil => rfl
  | cons m ext => rfl

theorem descriptionMember_eq (text : Option String) :
    (text.map fun s => (Step.field "$description", Written.text s)).toList =
      ofMembers (Members.optional "$description" (text.map .text)) := by
  cases text with
  | none => rfl
  | some s => rfl

/-- A token whose entries are written as templates is written with what is said about it. -/
theorem tokenNode_eq {tok : Token} {first : Template} {rest : Members Template}
    (hmodes : List.Forall₂ (fun (p : String × Template) (q : String × Entry) =>
      q.1 = p.1 ∧ t.asWritten tok.type q.2 = .ok (ofData p.2.written))
        ((defaultMode, first) :: rest) tok.modes)
    (hdefault : defaultMode ∉ rest.names) (hext : modeField ∉ tok.extensions.names) :
    t.tokenNode tok = .ok (ofData (.object (tokenMembers tok.type tok.description first.written
      tok.extensions (rest.map fun p => (p.1, p.2.written))))) := by
  obtain ⟨id, type, modes, group, span, text, ext⟩ := tok
  dsimp only at hmodes hext ⊢
  rw [List.forall₂_cons_left_iff] at hmodes
  obtain ⟨⟨_, e⟩, modes, ⟨rfl, hfirst⟩, hrest, rfl⟩ := hmodes
  have hnames : Members.names modes = rest.names :=
    Members.names_eq_of_forall₂ hrest fun _ _ hq => hq.1
  -- the modes beside the default mode are the others
  have hothers := filter_modes (hnames ▸ hdefault) e
  -- they are written one by one
  have hoverrides : (modes.mapM fun q => do
      return (Step.field q.1, ← t.asWritten type q.2)) =
        (.ok (ofMembers (rest.map fun p => (p.1, p.2.written))) : Except Fault _) := by
    rw [ofMembers_eq_map, List.map_map, mapM_eq_ok_iff, List.forall₂_map_right_iff]
    refine hrest.flip.imp fun q p hq => ?_
    obtain ⟨hname, hwritten⟩ := hq
    simp [hwritten, hname]
  have hentry : Token.entry ⟨id, type, (defaultMode, e) :: modes, group, span, text, ext⟩
      defaultMode = .ok e := by
    simp [Token.entry, Members.get?]
  rw [tokenNode, hentry]
  simp only [bind, Except.bind, hfirst, hothers] at hoverrides ⊢
  rw [hoverrides]
  dsimp only
  rw [setMember_modes hext, extensionsMember_eq, descriptionMember_eq, ofData, tokenMembers,
    ofMembers_append, ofMembers_append, ofMembers_append]
  rfl

end DesignTokens.Table
