import DesignTokens.Proofs.Draft.Inference
import Mathlib.Data.List.Perm.Subperm

/-!
# Where references lead

References lead from a draft over other drafts to a type, in one way only.  Inference succeeds
exactly when they do so from every draft, and then every draft gets the type that it is led to
(`infer_eq_none_iff`, `infer_leadsTo`).  So the outcome depends on the drafts alone and not on the
order in which they are looked at.
-/

namespace DesignTokens.Inference

open DesignTokens.Outcome (exists_left exists_right forall₂_imp)

variable {drafts : List Draft}

/-! ## Chains of references -/

/-- The draft that the value of a draft refers to. -/
def next? (drafts : List Draft) (d : Draft) : Option Draft :=
  (d.value.text?.bind Reference.parse?).bind fun r => Draft.find? r.target drafts

/-- References lead from a draft to a type in a number of steps. -/
inductive LeadsTo (drafts : List Draft) : Nat → Draft → TokenType → Prop where
  /-- A draft with a type leads nowhere else. -/
  | typed {d : Draft} {type : TokenType} : d.type = some type → LeadsTo drafts 0 d type
  /-- A draft without a type leads where the next one leads. -/
  | next {n : Nat} {d target : Draft} {type : TokenType} : d.type = none →
      next? drafts d = some target → LeadsTo drafts n target type →
      LeadsTo drafts (n + 1) d type

theorem next?_eq_some_iff (hids : (drafts.map Draft.id).Nodup) {d target : Draft} :
    next? drafts d = some target ↔
      ∃ r, d.value.text?.bind Reference.parse? = some r ∧ target ∈ drafts ∧
        target.id = r.target := by
  rw [next?, Option.bind_eq_some_iff]
  simp only [Draft.find?, find?_key_eq_some_iff hids]

theorem LeadsTo.unique {n m : Nat} {d : Draft} {type other : TokenType}
    (h : LeadsTo drafts n d type) (h' : LeadsTo drafts m d other) : n = m ∧ type = other := by
  induction h generalizing m with
  | typed htype =>
    cases h' with
    | typed htype' => exact ⟨rfl, Option.some.inj (htype.symm.trans htype')⟩
    | next hnone => simp [htype] at hnone
  | next hnone hnext _ ih =>
    cases h' with
    | typed htype => simp [htype] at hnone
    | next _ hnext' h' =>
      obtain rfl := Option.some.inj (hnext.symm.trans hnext')
      obtain ⟨rfl, rfl⟩ := ih h'
      exact ⟨rfl, rfl⟩

/-- Drafts that correspond to each other, and so do the drafts that they refer to, lead to the same
type. -/
theorem LeadsTo.transfer {others : List Draft} {R : Draft → Draft → Prop}
    (htype : ∀ d e, R d e → d.type = e.type)
    (hnext : ∀ d e, R d e → Option.Rel R (next? drafts d) (next? others e)) {n : Nat} {d e : Draft}
    {type : TokenType} (h : LeadsTo drafts n d type) (hde : R d e) : LeadsTo others n e type := by
  induction h generalizing e with
  | typed hsome => exact .typed (htype _ _ hde ▸ hsome)
  | next hnone hnext' _ ih =>
    have hrel := hnext _ _ hde
    rw [hnext'] at hrel
    cases hother : next? others e with
    | none => rw [hother] at hrel; cases hrel
    | some other =>
      rw [hother] at hrel
      cases hrel with
      | some htarget => exact .next (htype _ _ hde ▸ hnone) hother (ih htarget)

/-- On the way there is a draft for every smaller number of steps. -/
theorem LeadsTo.exists_of_le (hids : (drafts.map Draft.id).Nodup) {n : Nat} {d : Draft}
    {type : TokenType} (h : LeadsTo drafts n d type) (hd : d ∈ drafts) :
    ∀ k ≤ n, ∃ e ∈ drafts, LeadsTo drafts k e type := by
  induction h with
  | typed htype =>
    intro k hk
    obtain rfl := Nat.le_zero.mp hk
    exact ⟨_, hd, .typed htype⟩
  | @next n d target type hnone hnext h ih =>
    intro k hk
    obtain ⟨-, -, htarget, -⟩ := (next?_eq_some_iff hids).mp hnext
    rcases Nat.le_succ_iff.mp hk with hk | rfl
    · exact ih htarget k hk
    · exact ⟨d, hd, .next hnone hnext h⟩

/-- There are fewer steps than drafts, since no draft is met twice. -/
theorem LeadsTo.lt_length (hids : (drafts.map Draft.id).Nodup) {n : Nat} {d : Draft}
    {type : TokenType} (h : LeadsTo drafts n d type) (hd : d ∈ drafts) : n < drafts.length := by
  -- the number of steps as a function of the draft
  have hcount : ∀ e : Draft, ∃ k, ∀ m S, LeadsTo drafts m e S → m = k := by
    intro e
    by_cases he : ∃ m S, LeadsTo drafts m e S
    · obtain ⟨m, S, he⟩ := he
      exact ⟨m, fun k T hk => (hk.unique he).1⟩
    · exact ⟨0, fun m S hm => absurd ⟨m, S, hm⟩ he⟩
  choose count hcount using hcount
  have hsub : List.range (n + 1) ⊆ drafts.map count := by
    intro k hk
    obtain ⟨e, he, hlead⟩ := h.exists_of_le hids hd k (Nat.lt_succ_iff.mp (List.mem_range.mp hk))
    exact List.mem_map.mpr ⟨e, he, (hcount e k type hlead).symm⟩
  have hlength := (List.subperm_of_subset List.nodup_range hsub).length_le
  rwa [List.length_range, List.length_map] at hlength

/-! ## Following a chain -/

/-- One step of following a chain from a draft that refers to another one. -/
theorem follow_next {start current target : Draft} {fuel : Nat} {chain : List String}
    (hnone : current.type = none) (hnext : next? drafts current = some target) :
    follow drafts start (fuel + 1) chain current =
      if chain.contains target.id then issue (.circular (chain ++ [target.id])) start.value
      else follow drafts start fuel (chain ++ [target.id]) target := by
  obtain ⟨r, hr, hfind⟩ := Option.bind_eq_some_iff.mp hnext
  rw [follow, hnone, hr]
  dsimp only
  rw [hfind]

/-- A type that is found is the one that the draft leads to, and so do all drafts that have joined
the chain. -/
theorem leadsTo_of_follow (hids : (drafts.map Draft.id).Nodup) {start : Draft} {fuel : Nat}
    {chain : List String} {current : Draft} {found : List String} {type : TokenType}
    (h : follow drafts start fuel chain current = .found found type) :
    (∃ n, LeadsTo drafts n current type) ∧
      ∀ d ∈ drafts, d.id ∈ found → d.id ∈ chain ∨ ∃ n, LeadsTo drafts n d type := by
  induction fuel generalizing chain current with
  | zero => simp [follow] at h
  | succ fuel ih =>
    cases htype : current.type with
    | some other =>
      rw [follow, htype] at h
      simp only [Outcome.found.injEq] at h
      obtain ⟨rfl, rfl⟩ := h
      exact ⟨⟨0, .typed htype⟩, fun d _ hd => .inl hd⟩
    | none =>
      cases hnext : next? drafts current with
      | none =>
        -- without a next draft there is an issue
        rw [follow, htype] at h
        dsimp only at h
        split at h
        · simp at h
        · rename_i r hr
          rw [next?, hr, Option.bind_some] at hnext
          simp [hnext, issue] at h
      | some target =>
        rw [follow_next htype hnext] at h
        split at h
        · simp [issue] at h
        · obtain ⟨⟨n, hlead⟩, hfound⟩ := ih h
          refine ⟨⟨n + 1, .next htype hnext hlead⟩, fun d hd hid => ?_⟩
          obtain ⟨-, -, htarget, -⟩ := (next?_eq_some_iff hids).mp hnext
          rcases hfound d hd hid with hin | hlead'
          · rcases List.mem_append.mp hin with hin | hin
            · exact .inl hin
            · -- the target is the only draft of its path
              obtain rfl : d = target :=
                List.inj_on_of_nodup_map hids hd htarget (List.mem_singleton.mp hin)
              exact .inr ⟨n, hlead⟩
          · exact .inr hlead'

/-- A draft that leads to a type is followed to it, as long as no draft of the chain is nearer to
the type. -/
theorem follow_of_leadsTo (hids : (drafts.map Draft.id).Nodup) {start : Draft} {n : Nat}
    {current : Draft} {type : TokenType} (h : LeadsTo drafts n current type) {fuel : Nat}
    {chain : List String} (hfuel : n < fuel)
    (hchain : ∀ d ∈ drafts, d.id ∈ chain → ∀ m S, LeadsTo drafts m d S → n ≤ m) :
    ∃ found, follow drafts start fuel chain current = .found found type := by
  induction h generalizing fuel chain with
  | typed htype =>
    obtain ⟨fuel, rfl⟩ := Nat.exists_eq_add_one_of_ne_zero (Nat.ne_of_gt hfuel)
    exact ⟨chain, by rw [follow, htype]⟩
  | @next n current target type hnone hnext hlead ih =>
    obtain ⟨fuel, rfl⟩ := Nat.exists_eq_add_one_of_ne_zero (Nat.ne_of_gt (Nat.zero_lt_of_lt hfuel))
    obtain ⟨-, -, htarget, -⟩ := (next?_eq_some_iff hids).mp hnext
    -- the target is nearer to the type than all drafts of the chain
    have hnew : target.id ∉ chain := by
      intro hin
      have hle := hchain target htarget hin n type hlead
      omega
    rw [follow_next hnone hnext, if_neg (by simpa using hnew)]
    refine ih (by omega) fun d hd hin m S hm => ?_
    rcases List.mem_append.mp hin with hin | hin
    · have hle := hchain d hd hin m S hm
      omega
    · obtain rfl : d = target :=
        List.inj_on_of_nodup_map hids hd htarget (List.mem_singleton.mp hin)
      exact (hlead.unique hm).1 ▸ Nat.le_refl _

/-! ## Types that were given -/

/-- A draft that leads to a type still leads to one when drafts have got types. -/
theorem LeadsTo.exists_of_extends {others : List Draft} (hids : (drafts.map Draft.id).Nodup)
    (hext : List.Forall₂ Extends drafts others) {n : Nat} {d : Draft} {type : TokenType}
    (h : LeadsTo drafts n d type) {e : Draft} (hde : Extends d e) :
    ∃ m S, LeadsTo others m e S := by
  have hids' : (others.map Draft.id).Nodup := ids_eq hext ▸ hids
  induction h generalizing e with
  | typed htype =>
    obtain ⟨S, hS⟩ := Option.ne_none_iff_exists'.mp (hde.typed (by rw [htype]; simp))
    exact ⟨0, S, .typed hS⟩
  | @next n d target type hnone hnext _ ih =>
    cases htype : e.type with
    | some S => exact ⟨0, S, .typed htype⟩
    | none =>
      obtain ⟨r, hr, htarget, hid⟩ := (next?_eq_some_iff hids).mp hnext
      obtain ⟨target', htarget', hext'⟩ := exists_right hext htarget
      obtain ⟨m, S, hlead⟩ := ih hext'
      -- the reference of the draft is still there
      have hvalue : e.value = d.value := by rw [hde.eq]
      refine ⟨m + 1, S, .next htype ((next?_eq_some_iff hids').mpr ⟨r, ?_, htarget', ?_⟩) hlead⟩
      · rw [hvalue, hr]
      · rw [hext'.id_eq, hid]

/-- A draft that has got no other type than the one that it leads to. -/
structure Rightly (drafts : List Draft) (d e : Draft) : Prop extends Extends d e where
  leadsTo : ∀ type, e.type = some type → ∃ n, LeadsTo drafts n d type

/-- Where a draft leads among drafts that have got the right types it leads without them. -/
theorem LeadsTo.of_rightly {others : List Draft} (hids : (drafts.map Draft.id).Nodup)
    (hright : List.Forall₂ (Rightly drafts) drafts others) {n : Nat} {e : Draft}
    {type : TokenType} (h : LeadsTo others n e type) {d : Draft} (hde : Rightly drafts d e) :
    ∃ m, LeadsTo drafts m d type := by
  have hids' : (others.map Draft.id).Nodup :=
    ids_eq (hright.imp fun _ _ h => h.toExtends) ▸ hids
  induction h generalizing d with
  | typed htype => exact hde.leadsTo _ htype
  | @next n e target type hnone hnext _ ih =>
    obtain ⟨r, hr, htarget, hid⟩ := (next?_eq_some_iff hids').mp hnext
    obtain ⟨target', htarget', hext⟩ := exists_left hright htarget
    obtain ⟨m, hlead⟩ := ih hext
    have hvalue : e.value = d.value := by rw [hde.eq]
    -- a draft without a type had none before
    have hnone' : d.type = none := by
      by_contra htyped
      exact hde.typed htyped hnone
    refine ⟨m + 1, .next hnone' ((next?_eq_some_iff hids).mpr ⟨r, ?_, htarget', ?_⟩) hlead⟩
    · rw [← hvalue, hr]
    · rw [← hext.id_eq, hid]

/-! ## All drafts -/

/-- The types of a chain that was followed are the right ones. -/
theorem rightly_assign {others : List Draft} (hids : (drafts.map Draft.id).Nodup)
    (hright : List.Forall₂ (Rightly drafts) drafts others) {start : Draft}
    (hstart : start ∈ others) {fuel : Nat} {chain : List String} {type : TokenType}
    (h : follow others start fuel [start.id] start = .found chain type) :
    List.Forall₂ (Rightly drafts) drafts (assign chain type others) := by
  have hids' : (others.map Draft.id).Nodup :=
    ids_eq (hright.imp fun _ _ h => h.toExtends) ▸ hids
  obtain ⟨⟨n, hlead⟩, hchain⟩ := leadsTo_of_follow hids' h
  rw [assign, List.forall₂_map_right_iff]
  refine List.Forall₂.flip (forall₂_imp hright.flip fun e he d hde => ?_)
  have hde : Rightly drafts d e := hde
  show Rightly drafts d _
  split
  · rename_i hin
    refine ⟨⟨by rw [hde.eq], by simp⟩, fun S hS => ?_⟩
    obtain rfl := Option.some.inj hS
    rcases hchain e he (by simpa using hin) with hid | ⟨m, hlead'⟩
    · obtain rfl : e = start :=
        List.inj_on_of_nodup_map hids' he hstart (List.mem_singleton.mp hid)
      exact hlead.of_rightly hids hright hde
    · exact hlead'.of_rightly hids hright hde
  · exact hde

/-- Inference gives no wrong types. -/
theorem inferAll_rightly (hids : (drafts.map Draft.id).Nodup) {ids : List String}
    {others : List Draft} (hright : List.Forall₂ (Rightly drafts) drafts others)
    {found : List Draft} (h : inferAll ids others = (found, none)) :
    List.Forall₂ (Rightly drafts) drafts found := by
  induction ids generalizing others with
  | nil =>
    obtain rfl : others = found := by simpa [inferAll] using h
    exact hright
  | cons id rest ih =>
    rw [inferAll] at h
    split at h
    · exact ih hright h
    · rename_i draft hfind
      split at h
      · exact ih hright h
      · split at h
        · rename_i chain type hfollow
          exact ih (rightly_assign hids hright (List.mem_of_find?_eq_some hfind) hfollow) h
        all_goals simp at h

/-- When every draft leads to a type there is no issue. -/
theorem inferAll_of_leadsTo (hids : (drafts.map Draft.id).Nodup)
    (h : ∀ d ∈ drafts, ∃ n type, LeadsTo drafts n d type) (ids : List String) :
    ∃ found, inferAll ids drafts = (found, none) := by
  induction ids generalizing drafts with
  | nil => exact ⟨drafts, rfl⟩
  | cons id rest ih =>
    rw [inferAll]
    split
    · exact ih hids h
    · rename_i draft hfind
      have hmem := List.mem_of_find?_eq_some hfind
      split
      · exact ih hids h
      · obtain ⟨n, type, hlead⟩ := h draft hmem
        have hlt := hlead.lt_length hids hmem
        obtain ⟨chain, hfollow⟩ : ∃ chain,
            follow drafts draft (drafts.length + 1) [draft.id] draft = .found chain type := by
          refine follow_of_leadsTo hids hlead (by omega) fun d hd hin m S hm => ?_
          obtain rfl : d = draft :=
            List.inj_on_of_nodup_map hids hd hmem (List.mem_singleton.mp hin)
          exact (hlead.unique hm).1 ▸ Nat.le_refl _
        rw [hfollow]
        -- after the chain has got its type every draft still leads to one
        have hext := extends_assign chain type drafts
        refine ih (by rw [ids_eq hext]; exact hids) fun e he => ?_
        obtain ⟨d, hd, hde⟩ := exists_left hext he
        obtain ⟨m, S, hm⟩ := h d hd
        exact hm.exists_of_extends hids hext hde

/-- After inference every draft has the type that it leads to. -/
theorem infer_leadsTo (hids : (drafts.map Draft.id).Nodup) {found : List Draft}
    (h : infer drafts = (found, none)) :
    List.Forall₂ (fun d e => ∃ n type, e = { d with type := some type } ∧
      LeadsTo drafts n d type) drafts found := by
  have hself : List.Forall₂ (Rightly drafts) drafts drafts :=
    List.forall₂_same.mpr fun d _ => ⟨.refl d, fun _ htype => ⟨0, .typed htype⟩⟩
  have hright := inferAll_rightly hids hself h
  obtain ⟨-, htyped⟩ := infer_spec hids h
  refine List.Forall₂.flip (forall₂_imp hright.flip fun e he d hde => ?_)
  obtain ⟨type, htype⟩ := htyped e he
  obtain ⟨n, hlead⟩ := Rightly.leadsTo hde type htype
  refine ⟨n, type, ?_, hlead⟩
  rw [← htype]
  exact hde.eq

/-- Inference succeeds exactly when every draft leads to a type. -/
theorem infer_eq_none_iff (hids : (drafts.map Draft.id).Nodup) :
    (∃ found, infer drafts = (found, none)) ↔
      ∀ d ∈ drafts, ∃ n type, LeadsTo drafts n d type := by
  constructor
  · rintro ⟨found, h⟩ d hd
    obtain ⟨e, -, n, type, -, hlead⟩ := exists_right (infer_leadsTo hids h) hd
    exact ⟨n, type, hlead⟩
  · exact fun h => inferAll_of_leadsTo hids h _

end DesignTokens.Inference
