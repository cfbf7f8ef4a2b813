import DesignTokens.Proofs.Json.Numeral
import DesignTokens.Proofs.Json.Quoted
import DesignTokens.Proofs.Yaml.Composing

/-!
# Values of JSON as tokens of YAML

A portable text that is read as a value of JSON spells tokens that write the same value.  What
follows the value is only known later, so each lemma takes the tokens of what follows and gives the
tokens of the whole.

## Main statement

* `spellsAll`: what is read as a value spells tokens that write the value.
-/

namespace DesignTokens.Json

open Yaml

variable {s t w r : List Char} {since : Option Nat} {d : Data}

/-! ## White space -/

theorem exists_skipSpace (s : List Char) :
    ∃ w, s = w ++ skipSpace s ∧ ∀ ch ∈ w, isSpace ch = true :=
  ⟨s.takeWhile isSpace, List.takeWhile_append_dropWhile.symm, 
    fun _ => List.all_eq_true.mp List.all_takeWhile _⟩

theorem isBlank_of_isSpace (h : ∀ ch ∈ w, isSpace ch = true) : IsBlank true w :=
  fun ch hch => ⟨h ch hch, fun _ => rfl⟩

/-- Outside of strings a portable text goes on after each character that is no colon. -/
theorem isPortable_outside {ch : Char} (hquote : ch ≠ '"') (hcolon : ch ≠ ':')
    (h : isPortable (.outside since) (ch :: r) = true) :
    ∃ since', isPortable (.outside since') r = true := by
  rw [isPortable, if_neg hquote, if_neg hcolon] at h
  split at h <;> exact ⟨_, (Bool.and_eq_true_iff.mp h).2⟩

theorem isPortable_run {p : Char → Bool} (hquote : p '"' = false) (hcolon : p ':' = false)
    (hw : ∀ ch ∈ w, p ch = true) (h : isPortable (.outside since) (w ++ r) = true) :
    ∃ since', isPortable (.outside since') r = true := by
  induction w generalizing since with
  | nil => exact ⟨since, h⟩
  | cons ch w ih =>
    obtain ⟨hch, hw⟩ := List.forall_mem_cons.mp hw
    obtain ⟨since', h'⟩ := isPortable_outside (ne_of_class hch hquote) (ne_of_class hch hcolon) h
    exact ih hw h'

theorem isPortable_skipSpace (h : isPortable (.outside since) s = true) :
    ∃ since', isPortable (.outside since') (skipSpace s) = true := by
  obtain ⟨w, hs, hw⟩ := exists_skipSpace s
  rw [hs] at h
  exact isPortable_run (by decide) (by decide) hw h

/-- No colon stands behind white space on a line without a string. -/
theorem not_isPortable_colon (hw : ∀ ch ∈ w, isSpace ch = true) :
    isPortable (.outside none) (w ++ ':' :: r) = false := by
  induction w with
  | nil => simp
  | cons ch w ih =>
    obtain ⟨hch, hw⟩ := List.forall_mem_cons.mp hw
    rw [List.cons_append, isPortable, if_neg (ne_of_class hch (by decide)),
      if_neg (ne_of_class hch (by decide)), Option.map_none, ih hw, Bool.and_false, Bool.and_false, ite_self]

/-- Between a string and the colon after it there is no line break, and the colon is not too far
from the start of the string. -/
theorem isPortable_keyed {n : Nat} (hw : ∀ ch ∈ w, isSpace ch = true)
    (h : isPortable (.outside (some n)) (w ++ ':' :: r) = true) :
    (∀ ch ∈ w, ch = ' ' ∨ ch = '\t') ∧ n + w.length ≤ maxKeyLength ∧
      isPortable (.outside none) r = true := by
  induction w generalizing n with
  | nil =>
    rw [List.nil_append, isPortable_colon, Bool.and_eq_true] at h
    exact ⟨by simp, by simpa using h.1, h.2⟩
  | cons ch w ih =>
    obtain ⟨hch, hw⟩ := List.forall_mem_cons.mp hw
    rw [List.cons_append, isPortable, if_neg (ne_of_class hch (by decide)),
      if_neg (ne_of_class hch (by decide)), not_isPortable_colon hw, Bool.and_false] at h
    by_cases hblank : (ch = ' ' || ch = '\t') = true
    · rw [if_pos hblank] at h
      obtain ⟨hblanks, hlength, hr⟩ := ih (n := n + 1) hw (Bool.and_eq_true_iff.mp h).2
      refine ⟨List.forall_mem_cons.mpr ⟨by simpa using hblank, hblanks⟩, ?_, hr⟩
      rw [List.length_cons]
      omega
    · rw [if_neg hblank] at h
      cases h

/-! ## Words and numbers -/

/-- A word of JSON in a portable text is the same word in YAML. -/
theorem readScalar_of_readWord? (h : readWord? s = some (d, t))
    (hportable : isPortable (.outside since) s = true) :
    ∃ raw, s = raw ++ t ∧ IsBare raw ∧ ∀ version,
      readScalar version (impliedTag version raw) (String.ofList raw) = .ok d := by
  obtain ⟨⟨raw, d'⟩, hfind, hword⟩ := Option.map_eq_some_iff.mp h
  obtain ⟨rfl, rfl⟩ := Prod.mk.inj hword
  have hprefix : raw.isPrefixOf s = true := by simpa using List.find?_some hfind
  obtain ⟨u, rfl⟩ := List.isPrefixOf_iff_prefix.mp hprefix
  have hmem : (raw, d') ∈ words := List.mem_of_find?_eq_some hfind
  refine ⟨raw, by simp, ?_⟩
  simp only [words, List.mem_cons, Prod.mk.injEq, List.not_mem_nil, or_false] at hmem
  obtain ⟨rfl, rfl⟩ | ⟨rfl, rfl⟩ | ⟨rfl, rfl⟩ | ⟨rfl, rfl⟩ | ⟨rfl, rfl⟩ | ⟨rfl, rfl⟩ := hmem
  · exact ⟨⟨forall_mem_of_all (by decide), _, _, rfl, .inl rfl⟩, fun version => by cases version <;> rfl⟩
  · exact ⟨⟨forall_mem_of_all (by decide), _, _, rfl, .inl rfl⟩, fun version => by cases version <;> rfl⟩
  · exact ⟨⟨forall_mem_of_all (by decide), _, _, rfl, .inl rfl⟩, fun version => by cases version <;> rfl⟩
  · simp [isPortable] at hportable
  · simp [isPortable] at hportable
  · simp [isPortable] at hportable

/-! ## What a value spells -/

/-- Up to `t` the text spells tokens, whatever is spelled after it. -/
def Leads (kinds : List TokenKind) (s t : List Char) : Prop :=
  ∀ {brackets : List Bracket} {keyed : Bool} {ks : List TokenKind} {w r : List Char},
    t = w ++ r → IsBlank (!brackets.isEmpty) w → EndsItem (!brackets.isEmpty) r →
    Spells brackets false ks r → Spells brackets keyed (kinds ++ ks) s

/-- Up to `t` the text spells the parts of a collection and its end; `keyed` says that a key may
start there. -/
def LeadsOut (keyed : Bool) (b : Bracket) (kinds : List TokenKind) (s t : List Char) : Prop :=
  ∀ {brackets : List Bracket} {ks : List TokenKind} {w r : List Char},
    t = w ++ r → IsBlank (!brackets.isEmpty) w → Spells brackets false ks r →
    Spells (b :: brackets) keyed (kinds ++ ks) s

/-- What is to be shown of a value that stands in front of `t`. -/
structure SpellsValue (d : Data) (s t : List Char) : Prop where
  portable : ∃ since, isPortable (.outside since) t = true
  spells : d.tree.WellKeyed →
    ∃ kinds, (∀ version, Encodes version (.value d) kinds) ∧ Leads kinds s t

/-- What is to be shown of items, and the end of their list, that stand in front of `t`. -/
structure SpellsItems (ds : List Data) (s t : List Char) : Prop where
  portable : ∃ since, isPortable (.outside since) t = true
  spells : (∀ d ∈ ds, d.tree.WellKeyed) →
    ∃ kinds, (∀ version more, Encodes version (.items more ds) (commaIf more ++ kinds)) ∧
      LeadsOut true .square kinds s t

/-- What is to be shown of members, and the end of their object, that stand in front of `t`. -/
structure SpellsMembers (ms : List (String × Data)) (s t : List Char) : Prop where
  portable : ∃ since, isPortable (.outside since) t = true
  spells : (∀ m ∈ ms, m.2.tree.WellKeyed) →
    ∃ kinds, (∀ version more, Encodes version (.members more ms) (commaIf more ++ kinds)) ∧
      LeadsOut true .curly kinds s t

section Leads

variable {keyed : Bool} {b : Bracket} {k kinds : List TokenKind} {v : List Char}

theorem leads_open (hw : ∀ ch ∈ w, isSpace ch = true) (h : LeadsOut true b kinds r t) :
    Leads (b.opening.2 :: kinds) (b.opening.1 :: (w ++ r)) t :=
  fun ht hblank _ hspells => .opened b (isBlank_of_isSpace hw) (h ht hblank hspells)

theorem leadsOut_close (keyed : Bool) (b : Bracket) (t : List Char) :
    LeadsOut keyed b [b.closing.2] (b.closing.1 :: t) t := by
  rintro brackets ks w r rfl hblank hspells
  exact .closed b hblank hspells

/-- A value, and white space before the closing bracket. -/
theorem Leads.close (h : Leads k s (w ++ b.closing.1 :: t)) (hw : ∀ ch ∈ w, isSpace ch = true) :
    LeadsOut keyed b (k ++ [b.closing.2]) s t := by
  intro brackets ks v r ht hblank hspells
  rw [List.append_assoc]
  refine h rfl (isBlank_of_isSpace hw) ?_ (leadsOut_close false b t ht hblank hspells)
  cases b <;> simp [EndsItem, Bracket.closing]

/-- A value, white space around the comma after it, and what follows in the collection. -/
theorem Leads.comma (h : Leads k s (w ++ ',' :: (v ++ r))) (hw : ∀ ch ∈ w, isSpace ch = true)
    (hv : ∀ ch ∈ v, isSpace ch = true) (hrest : LeadsOut true b kinds r t) :
    LeadsOut keyed b (k ++ .flowEntry :: kinds) s t := by
  intro brackets ks u r' ht hblank hspells
  rw [List.append_assoc]
  refine h rfl (isBlank_of_isSpace hw) (by simp [EndsItem]) ?_
  exact .comma (isBlank_of_isSpace hv) (hrest ht hblank hspells)

/-- A key, blanks before its colon, and white space before its value. -/
theorem leadsOut_key {raw : List Char} {name : String}
    (hraw : IsQuoted raw (v ++ ':' :: (w ++ s)) name) (hv : ∀ ch ∈ v, ch = ' ' ∨ ch = '\t')
    (hlength : raw.length + v.length ≤ maxKeyLength) (hw : ∀ ch ∈ w, isSpace ch = true)
    (h : LeadsOut false .curly kinds s t) :
    LeadsOut true .curly (.key :: .scalar name false :: .value :: kinds)
      (raw ++ (v ++ ':' :: (w ++ s))) t :=
  fun ht hblank hspells =>
    .key hraw hv hlength (isBlank_of_isSpace hw) (h ht hblank hspells)

end Leads

theorem spellsValue_bare {raw : List Char} (hraw : IsBare raw)
    (hportable : isPortable (.outside since) (raw ++ t) = true)
    (hread : ∀ version, readScalar version (impliedTag version raw) (String.ofList raw) = .ok d) :
    SpellsValue d (raw ++ t) t := by
  refine ⟨isPortable_run (by decide) (by decide) hraw.chars hportable, fun _ =>
    ⟨[.scalar (String.ofList raw) true], fun version => .plain ?_, ?_⟩⟩
  · rw [String.toList_ofList]
    exact hread version
  · rintro brackets keyed ks w r rfl hblank hends hspells
    exact .bare hraw hblank hends hspells

theorem spellsValue_text {fuel : Nat} {text : String} (h : readString fuel s = .ok (text, t))
    (hportable : isPortable (.outside since) ('"' :: s) = true) :
    SpellsValue (.text text) ('"' :: s) t := by
  obtain ⟨raw, hs, hraw, hafter⟩ := isQuoted_of_readString h hportable
  refine ⟨⟨_, hafter⟩, fun _ => ⟨[.scalar text false], fun _ => .quoted text, ?_⟩⟩
  rintro brackets keyed ks w r rfl hblank - hspells
  rw [hs]
  exact .quoted hraw hblank hspells

theorem SpellsItems.list {ds : List Data} (h : SpellsItems ds (skipSpace s) t) :
    SpellsValue (.list ds) ('[' :: s) t := by
  obtain ⟨w, hs, hw⟩ := exists_skipSpace s
  refine ⟨h.portable, fun hkeyed => ?_⟩
  obtain ⟨kinds, hwritten, hleads⟩ := h.spells (Tree.wellKeyed_tree_list.mp hkeyed)
  refine ⟨.sequenceOpen :: kinds, fun version => .list (hwritten version false), ?_⟩
  rw [hs]
  exact leads_open hw hleads

theorem SpellsMembers.object {ms : List (String × Data)} (h : SpellsMembers ms (skipSpace s) t) :
    SpellsValue (.object ms) ('\x7b' :: s) t := by
  obtain ⟨w, hs, hw⟩ := exists_skipSpace s
  refine ⟨h.portable, fun hkeyed => ?_⟩
  obtain ⟨hnames, hvalues⟩ := Tree.wellKeyed_tree_object.mp hkeyed
  obtain ⟨kinds, hwritten, hleads⟩ := h.spells hvalues
  refine ⟨.mappingOpen :: kinds, fun version => .object (hwritten version false) hnames, ?_⟩
  rw [hs]
  exact leads_open hw hleads

theorem spellsValue_emptyList (hportable : isPortable (.outside since) s = true)
    (hs : skipSpace s = ']' :: t) : SpellsValue (.list []) ('[' :: s) t := by
  obtain ⟨w, hsplit, hw⟩ := exists_skipSpace s
  obtain ⟨since', hclose⟩ := isPortable_skipSpace hportable
  rw [hs] at hsplit hclose
  refine ⟨isPortable_outside (by decide) (by decide) hclose, fun _ =>
    ⟨[.sequenceOpen, .sequenceClose], fun version => .list (.noItems false), ?_⟩⟩
  rw [hsplit]
  exact leads_open hw (leadsOut_close true .square t)

theorem spellsValue_emptyObject (hportable : isPortable (.outside since) s = true)
    (hs : skipSpace s = '\x7d' :: t) : SpellsValue (.object []) ('\x7b' :: s) t := by
  obtain ⟨w, hsplit, hw⟩ := exists_skipSpace s
  obtain ⟨since', hclose⟩ := isPortable_skipSpace hportable
  rw [hs] at hsplit hclose
  refine ⟨isPortable_outside (by decide) (by decide) hclose, fun _ =>
    ⟨[.mappingOpen, .mappingClose], fun version => .object (.noMembers false) List.nodup_nil, ?_⟩⟩
  rw [hsplit]
  exact leads_open hw (leadsOut_close true .curly t)

theorem SpellsValue.after {c : Char} {u : List Char} (h : SpellsValue d s r)
    (hr : skipSpace r = c :: u) (hquote : c ≠ '"') (hcolon : c ≠ ':') :
    ∃ since, isPortable (.outside since) u = true := by
  obtain ⟨since, hportable⟩ := h.portable
  obtain ⟨since', hafter⟩ := isPortable_skipSpace hportable
  rw [hr] at hafter
  exact isPortable_outside hquote hcolon hafter

/-! ## Items -/

theorem SpellsValue.lastItem (h : SpellsValue d s r) (hr : skipSpace r = ']' :: t) :
    SpellsItems [d] s t := by
  obtain ⟨w, hsplit, hw⟩ := exists_skipSpace r
  rw [hr] at hsplit
  refine ⟨h.after hr (by decide) (by decide), fun hkeyed => ?_⟩
  obtain ⟨kinds, hwritten, hleads⟩ := h.spells (hkeyed d List.mem_cons_self)
  refine ⟨kinds ++ [.sequenceClose], fun version more => .item more (hwritten version)
    (.noItems true), ?_⟩
  rw [hsplit] at hleads
  exact Leads.close (b := .square) hleads hw

theorem SpellsValue.item {ds : List Data} {u : List Char} (h : SpellsValue d s r)
    (hr : skipSpace r = ',' :: u) (hrest : SpellsItems ds (skipSpace u) t) :
    SpellsItems (d :: ds) s t := by
  obtain ⟨w, hsplit, hw⟩ := exists_skipSpace r
  obtain ⟨v, hsplit', hv⟩ := exists_skipSpace u
  refine ⟨hrest.portable, fun hkeyed => ?_⟩
  obtain ⟨hd, hds⟩ := List.forall_mem_cons.mp hkeyed
  obtain ⟨k, hwritten, hleads⟩ := h.spells hd
  obtain ⟨kinds, hwritten', hleads'⟩ := hrest.spells hds
  refine ⟨k ++ .flowEntry :: kinds, fun version more => .item more (hwritten version)
    (hwritten' version true), ?_⟩
  rw [hsplit, hr, hsplit'] at hleads
  exact hleads.comma hw hv hleads'

/-! ## Members -/

/-- What stands between a name and its value. -/
structure Named (name : String) (s u : List Char) : Prop where
  portable : ∃ since, isPortable (.outside since) u = true
  leads : ∀ {kinds : List TokenKind} {t : List Char}, LeadsOut false .curly kinds u t →
    LeadsOut true .curly (.key :: .scalar name false :: .value :: kinds) s t

theorem named_of_readString {fuel : Nat} {name : String} {u : List Char}
    (h : readString fuel s = .ok (name, r)) (hr : skipSpace r = ':' :: u)
    (hportable : isPortable (.outside since) ('"' :: s) = true) :
    Named name ('"' :: s) (skipSpace u) := by
  obtain ⟨raw, hs, hraw, hafter⟩ := isQuoted_of_readString h hportable
  obtain ⟨v, hsplit, hv⟩ := exists_skipSpace r
  obtain ⟨w, hsplit', hw⟩ := exists_skipSpace u
  rw [hr] at hsplit
  rw [hsplit] at hs hraw hafter
  obtain ⟨hblanks, hlength, hvalue⟩ := isPortable_keyed hv hafter
  refine ⟨isPortable_skipSpace hvalue, fun hleads => ?_⟩
  rw [hsplit'] at hs hraw
  rw [hs]
  exact leadsOut_key hraw hblanks hlength hw hleads

theorem SpellsValue.lastMember {name : String} {u : List Char} (hname : Named name s u)
    (h : SpellsValue d u r) (hr : skipSpace r = '\x7d' :: t) : SpellsMembers [(name, d)] s t := by
  obtain ⟨w, hsplit, hw⟩ := exists_skipSpace r
  rw [hr] at hsplit
  refine ⟨h.after hr (by decide) (by decide), fun hkeyed => ?_⟩
  obtain ⟨kinds, hwritten, hleads⟩ := h.spells (hkeyed _ List.mem_cons_self)
  refine ⟨.key :: .scalar name false :: .value :: (kinds ++ [.mappingClose]), fun version more =>
    .member more (hwritten version) (.noMembers true), ?_⟩
  rw [hsplit] at hleads
  exact hname.leads (Leads.close (b := .curly) hleads hw)

theorem SpellsValue.member {name : String} {ms : List (String × Data)} {u v : List Char}
    (hname : Named name s u) (h : SpellsValue d u r) (hr : skipSpace r = ',' :: v)
    (hrest : SpellsMembers ms (skipSpace v) t) : SpellsMembers ((name, d) :: ms) s t := by
  obtain ⟨w, hsplit, hw⟩ := exists_skipSpace r
  obtain ⟨w', hsplit', hw'⟩ := exists_skipSpace v
  refine ⟨hrest.portable, fun hkeyed => ?_⟩
  obtain ⟨hd, hms⟩ := List.forall_mem_cons.mp hkeyed
  obtain ⟨k, hwritten, hleads⟩ := h.spells hd
  obtain ⟨kinds, hwritten', hleads'⟩ := hrest.spells hms
  refine ⟨.key :: .scalar name false :: .value :: (k ++ .flowEntry :: kinds), fun version more =>
    .member more (hwritten version) (hwritten' version true), ?_⟩
  rw [hsplit, hr, hsplit'] at hleads
  exact hname.leads (hleads.comma hw hw' hleads')

/-! ## The readers -/

/-- What the readers of values show with an amount of fuel. -/
structure SpellsAll (fuel : Nat) : Prop where
  value : ∀ {s t : List Char} {since : Option Nat} {d : Data},
    readValue id fuel s = .ok (d, t) → isPortable (.outside since) s = true → SpellsValue d s t
  items : ∀ {s t : List Char} {since : Option Nat} {done : List Data} {d : Data},
    readItems id fuel done s = .ok (d, t) → isPortable (.outside since) s = true →
    ∃ ds, d = .list (done.reverse ++ ds) ∧ SpellsItems ds s t
  members : ∀ {s t : List Char} {since : Option Nat} {done : List (String × Data)} {d : Data},
    readMembers id fuel done s = .ok (d, t) → isPortable (.outside since) s = true →
    ∃ ms, d = .object (done.reverse ++ ms) ∧ SpellsMembers ms s t

theorem SpellsAll.readItems {fuel : Nat} (h : SpellsAll fuel) {done : List Data}
    (hread : readItems id (fuel + 1) done s = .ok (d, t))
    (hportable : isPortable (.outside since) s = true) :
    ∃ ds, d = .list (done.reverse ++ ds) ∧ SpellsItems ds s t := by
  unfold Json.readItems at hread
  split at hread
  · cases hread
  · rename_i value r hvalue
    have hspells := h.value hvalue hportable
    split at hread
    · rename_i u hclose
      cases hread
      exact ⟨[value], by simp, hspells.lastItem hclose⟩
    · rename_i u hcomma
      obtain ⟨since', hafter⟩ := hspells.after hcomma (by decide) (by decide)
      obtain ⟨since', hafter⟩ := isPortable_skipSpace hafter
      obtain ⟨ds, rfl, hrest⟩ := h.items hread hafter
      exact ⟨value :: ds, by simp, hspells.item hcomma hrest⟩
    · cases hread

theorem SpellsAll.readMembers {fuel : Nat} (h : SpellsAll fuel) {done : List (String × Data)}
    (hread : readMembers id (fuel + 1) done s = .ok (d, t))
    (hportable : isPortable (.outside since) s = true) :
    ∃ ms, d = .object (done.reverse ++ ms) ∧ SpellsMembers ms s t := by
  unfold Json.readMembers at hread
  split at hread
  · split at hread
    · cases hread
    · rename_i r' name r hstring
      split at hread
      · rename_i u hcolon
        have hname := named_of_readString hstring hcolon hportable
        obtain ⟨since', hbefore⟩ := hname.portable
        split at hread
        · cases hread
        · rename_i value v hvalue
          have hspells := h.value hvalue hbefore
          split at hread
          · rename_i w hclose
            cases hread
            exact ⟨[(name, value)], by simp, hspells.lastMember hname hclose⟩
          · rename_i w hcomma
            obtain ⟨since', hafter⟩ := hspells.after hcomma (by decide) (by decide)
            obtain ⟨since', hafter⟩ := isPortable_skipSpace hafter
            obtain ⟨ms, rfl, hrest⟩ := h.members hread hafter
            exact ⟨(name, value) :: ms, by simp, hspells.member hname hcomma hrest⟩
          · cases hread
      · cases hread
  · cases hread

theorem SpellsAll.readValue {fuel : Nat} (h : SpellsAll fuel)
    (hread : readValue id (fuel + 1) s = .ok (d, t))
    (hportable : isPortable (.outside since) s = true) : SpellsValue d s t := by
  unfold Json.readValue at hread
  split at hread
  · split at hread
    · rename_i r' text r hstring
      cases hread
      exact spellsValue_text hstring hportable
    · cases hread
  · rename_i r
    obtain ⟨since', hafter⟩ := isPortable_outside (by decide) (by decide) hportable
    split at hread
    · rename_i u hclose
      cases hread
      exact spellsValue_emptyObject hafter hclose
    · obtain ⟨since'', hmembers⟩ := isPortable_skipSpace hafter
      obtain ⟨ms, rfl, hspells⟩ := h.members hread hmembers
      exact hspells.object
  · rename_i r
    obtain ⟨since', hafter⟩ := isPortable_outside (by decide) (by decide) hportable
    split at hread
    · rename_i u hclose
      cases hread
      exact spellsValue_emptyList hafter hclose
    · obtain ⟨since'', hitems⟩ := isPortable_skipSpace hafter
      obtain ⟨ds, rfl, hspells⟩ := h.items hread hitems
      exact hspells.list
  · split at hread
    · rename_i p hword
      cases hread
      obtain ⟨raw, rfl, hraw, hvalue⟩ := readScalar_of_readWord? hword hportable
      exact spellsValue_bare hraw hportable hvalue
    · obtain ⟨raw, rfl, hraw, hvalue⟩ := readScalar_of_readNumber hread
      exact spellsValue_bare hraw hportable hvalue

/-- By induction on the fuel. -/
theorem spellsAll (fuel : Nat) : SpellsAll fuel := by
  induction fuel with
  | zero =>
    constructor <;> intros <;> rename_i hread _ <;>
      simp [Json.readValue, Json.readItems, Json.readMembers, fail] at hread
  | succ fuel ih => exact ⟨ih.readValue, ih.readItems, ih.readMembers⟩

/-! ## Whole texts -/

/-- White space at the end of a portable text has no tab. -/
theorem isBlank_of_end (hw : ∀ ch ∈ w, isSpace ch = true)
    (h : isPortable (.outside since) w = true) : IsBlank false w := by
  induction w generalizing since with
  | nil => simp [IsBlank]
  | cons ch w ih =>
    obtain ⟨hch, hspace⟩ := List.forall_mem_cons.mp hw
    obtain ⟨since', hrest⟩ :=
      isPortable_outside (ne_of_class hch (by decide)) (ne_of_class hch (by decide)) h
    refine List.forall_mem_cons.mpr ⟨⟨hch, ?_⟩, ih hspace hrest⟩
    rintro rfl
    have hall : w.all isSpace = true := List.all_eq_true.mpr hspace
    rw [isPortable, hall] at h
    simp at h

/-- What a portable text says is what its tokens write. -/
theorem spells_of_readText (h : readText id s = .ok d) (hkeyed : d.tree.WellKeyed)
    (hportable : Portable s) :
    ∃ w r kinds, s = w ++ r ∧ IsBlank false w ∧ Spells [] true (kinds ++ [.textEnd]) r ∧
      ∀ version, Encodes version (.value d) kinds := by
  have hgo : readText.go id s = .ok d := by
    unfold readText at h
    split at h
    · split at h
      · cases h
      · exact h
    · exact h
  unfold readText.go at hgo
  split at hgo
  · cases hgo
  · rename_i value t hvalue
    split at hgo
    · rename_i hend
      cases hgo
      obtain ⟨since, hstart⟩ := isPortable_skipSpace hportable.places
      have hspells := (spellsAll _).value hvalue hstart
      obtain ⟨kinds, hwritten, hleads⟩ := hspells.spells hkeyed
      obtain ⟨v, ht, hv⟩ := exists_skipSpace t
      rw [hend, List.append_nil] at ht
      obtain ⟨since', hafter⟩ := hspells.portable
      obtain ⟨w, hs, hw⟩ := exists_skipSpace s
      -- in front of the data a tab would be indentation
      have hbefore : IsBlank false w := by
        refine fun ch hch => ⟨hw ch hch, ?_⟩
        rintro rfl
        have hstart := hportable.start
        rw [hs, List.takeWhile_append_of_pos hw] at hstart
        exact absurd (List.mem_append_left _ hch) hstart
      refine ⟨w, _, kinds, hs, hbefore, ?_, hwritten⟩
      refine hleads (r := []) ?_ (isBlank_of_end hv (ht ▸ hafter)) (by simp [EndsItem]) .ended
      rw [List.append_nil]
      exact ht
    · cases hgo

end DesignTokens.Json
