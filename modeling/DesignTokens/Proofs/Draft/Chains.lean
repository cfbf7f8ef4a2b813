import DesignTokens.Proofs.Draft.Following
import DesignTokens.Proofs.Draft.Places
import DesignTokens.Proofs.Matching
import Mathlib.Data.List.Chain

/-!
# Chains of references

Inference follows a chain of references until it comes to a type, to a path without a token, or to a
token of the chain.  Every chain ends, since no token stands in it twice, so the fuel is never used
up, and a token without a type whose value is no reference is never met (`runs_infer`).  What
inference returns does not depend on the order of the drafts (`infer_perm`), and a failure tells why
some draft does not lead to a type (`infer_stuck`).

## Main statement

* `infer_outcome`
-/

namespace DesignTokens.Inference

open DesignTokens.Outcome (exists_left exists_right)

variable {drafts others : List Draft}

/-! ## Running without a bound -/

/-- Where references lead from a draft on, however many steps it takes.  The chain holds the paths
of the drafts before and of the draft itself. -/
inductive Follows (drafts : List Draft) (start : Draft) : List String → Draft → Outcome → Prop where
  /-- A type ends the chain. -/
  | typed {chain : List String} {current : Draft} {type : TokenType} :
      current.type = some type → Follows drafts start chain current (.found chain type)
  /-- No draft has the path that the value refers to. -/
  | unknown {chain : List String} {current : Draft} {r : Reference} : current.type = none →
      current.value.text?.bind Reference.parse? = some r →
      Draft.find? r.target drafts = none →
      Follows drafts start chain current (issue (.unknownTarget r current.id) current.value)
  /-- The value refers to a draft of the chain. -/
  | circular {chain : List String} {current target : Draft} : current.type = none →
      next? drafts current = some target → target.id ∈ chain →
      Follows drafts start chain current (issue (.circular (chain ++ [target.id])) start.value)
  /-- The draft that the value refers to joins the chain. -/
  | next {chain : List String} {current target : Draft} {outcome : Outcome} : current.type = none →
      next? drafts current = some target → target.id ∉ chain →
      Follows drafts start (chain ++ [target.id]) target outcome →
      Follows drafts start chain current outcome

/-- Types are given to the drafts of paths one after the other; every chain is followed to its
end. -/
inductive Runs : List String → List Draft → List Draft × Option Failure → Prop where
  /-- All drafts have been looked at. -/
  | done {drafts : List Draft} : Runs [] drafts (drafts, none)
  /-- A draft with a type stays as it is. -/
  | typed {drafts : List Draft} {d : Draft} {type : TokenType} {rest : List String}
      {result : List Draft × Option Failure} : d ∈ drafts → d.type = some type →
      Runs rest drafts result → Runs (d.id :: rest) drafts result
  /-- A chain that leads to a type gives it to all its drafts. -/
  | found {drafts : List Draft} {d : Draft} {chain rest : List String} {type : TokenType}
      {result : List Draft × Option Failure} : d ∈ drafts → d.type = none →
      Follows drafts d [d.id] d (.found chain type) → Runs rest (assign chain type drafts) result →
      Runs (d.id :: rest) drafts result
  /-- A chain that leads to no type is the end. -/
  | failed {drafts : List Draft} {d : Draft} {rest : List String} {failure : Failure} :
      d ∈ drafts → d.type = none → Follows drafts d [d.id] d (.failed failure) →
      Runs (d.id :: rest) drafts (drafts, some failure)

/-- Every draft without a type is a reference. -/
def Referring (drafts : List Draft) : Prop :=
  ∀ d ∈ drafts, d.type = none → ∃ r, d.value.text?.bind Reference.parse? = some r

instance : Decidable (Referring drafts) :=
  decidable_of_iff
    (∀ d ∈ drafts, d.type = none → (d.value.text?.bind Reference.parse?).isSome = true)
    (by simp only [Referring, Option.isSome_iff_exists])

/-- A chain is followed to its end as long as the steps that are left and the drafts of the chain
are more than all drafts. -/
theorem follows_follow (hids : (drafts.map Draft.id).Nodup) (href : Referring drafts)
    {start current : Draft} {fuel : Nat} {chain : List String} (hcurrent : current ∈ drafts)
    (hnodup : chain.Nodup) (hchain : chain ⊆ drafts.map Draft.id)
    (hfuel : drafts.length < fuel + chain.length) :
    Follows drafts start chain current (follow drafts start fuel chain current) := by
  induction fuel generalizing chain current with
  | zero =>
    -- no chain is longer than that
    have hlength := (List.Nodup.subperm hnodup hchain).length_le
    rw [List.length_map] at hlength
    omega
  | succ fuel ih =>
    cases htype : current.type with
    | some type =>
      rw [follow, htype]
      exact .typed htype
    | none =>
      obtain ⟨r, hr⟩ := href current hcurrent htype
      cases hfind : Draft.find? r.target drafts with
      | none =>
        rw [follow, htype, hr]
        dsimp only
        rw [hfind]
        exact .unknown htype hr hfind
      | some target =>
        have hnext : next? drafts current = some target := by rw [next?, hr]; exact hfind
        obtain ⟨-, -, htarget, -⟩ := (next?_eq_some_iff hids).mp hnext
        rw [follow_next htype hnext]
        split
        · rename_i hin
          exact .circular htype hnext (by simpa using hin)
        · rename_i hnew
          have hnew : target.id ∉ chain := by simpa using hnew
          -- the chain is longer by a draft that it did not have
          refine .next htype hnext hnew (ih htarget ?_ ?_ ?_)
          · exact List.nodup_append.mpr ⟨hnodup, List.nodup_singleton _,
              fun a ha b hb hab => hnew (List.mem_singleton.mp hb ▸ hab ▸ ha)⟩
          · exact List.append_subset.mpr ⟨hchain, by simpa using ⟨target, htarget, rfl⟩⟩
          · rw [List.length_append, List.length_singleton]
            omega

/-- A chain that is followed to its end comes to a type or to an issue. -/
theorem Follows.ends {start current : Draft} {chain : List String} {outcome : Outcome}
    (h : Follows drafts start chain current outcome) :
    (∃ found type, outcome = .found found type) ∨ ∃ failure, outcome = .failed failure := by
  induction h with
  | typed => exact .inl ⟨_, _, rfl⟩
  | unknown => exact .inr ⟨_, rfl⟩
  | circular => exact .inr ⟨_, rfl⟩
  | next _ _ _ _ ih => exact ih

/-- Drafts that have got types still refer to others when they have none. -/
theorem Referring.of_extends (href : Referring drafts) (hext : List.Forall₂ Extends drafts others) :
    Referring others := by
  intro e he hnone
  obtain ⟨d, hd, hde⟩ := exists_left hext he
  rw [show e.value = d.value by rw [hde.eq]]
  refine href d hd ?_
  by_contra htyped
  exact hde.typed htyped hnone

theorem runs_inferAll (hids : (drafts.map Draft.id).Nodup) (href : Referring drafts)
    {ids : List String} (hin : ids ⊆ drafts.map Draft.id) :
    Runs ids drafts (inferAll ids drafts) := by
  induction ids generalizing drafts with
  | nil => exact .done
  | cons id rest ih =>
    obtain ⟨d, hd, rfl⟩ := List.mem_map.mp (hin List.mem_cons_self)
    have hrest : rest ⊆ drafts.map Draft.id := fun _ h => hin (List.mem_cons_of_mem _ h)
    have hfind : Draft.find? d.id drafts = some d := (find?_key_eq_some_iff hids).mpr ⟨hd, rfl⟩
    rw [inferAll, hfind]
    cases htype : d.type with
    | some type => simpa only [htype] using Runs.typed hd htype (ih hids href hrest)
    | none =>
      have hfollows : Follows drafts d [d.id] d
          (follow drafts d (drafts.length + 1) [d.id] d) :=
        follows_follow hids href hd (List.nodup_singleton d.id) (by simpa using ⟨d, hd, rfl⟩)
          (by rw [List.length_singleton]; omega)
      dsimp only
      rw [htype]
      dsimp only
      obtain ⟨chain, type, hfollow⟩ | ⟨failure, hfollow⟩ := hfollows.ends
      · rw [hfollow] at hfollows ⊢
        -- types change neither the paths of the drafts nor what they refer to
        have hext := extends_assign chain type drafts
        have hids' := ids_eq hext
        exact .found hd htype hfollows
          (ih (hids' ▸ hids) (href.of_extends hext) (hids' ▸ hrest))
      · rw [hfollow] at hfollows ⊢
        exact .failed hd htype hfollows

/-- Inference ends by itself. -/
theorem runs_infer (hids : (drafts.map Draft.id).Nodup) (href : Referring drafts) :
    Runs (drafts.map Draft.id) drafts (infer drafts) :=
  runs_inferAll hids href (List.Subset.refl _)

/-! ## The order of drafts -/

theorem next?_perm (hids : (drafts.map Draft.id).Nodup) (h : drafts.Perm others) (d : Draft) :
    next? drafts d = next? others d := by
  ext target
  have hids' : (others.map Draft.id).Nodup := (h.map Draft.id).nodup_iff.mp hids
  rw [next?_eq_some_iff hids, next?_eq_some_iff hids']
  simp only [h.mem_iff]

theorem LeadsTo.perm (hids : (drafts.map Draft.id).Nodup) (h : drafts.Perm others) {n : Nat}
    {d : Draft} {type : TokenType} (hlead : LeadsTo drafts n d type) : LeadsTo others n d type := by
  refine hlead.transfer (R := Eq) (fun _ _ => congrArg Draft.type) ?_ rfl
  rintro d _ rfl
  rw [next?_perm hids h d]
  cases next? others d <;> constructor
  rfl

/-- Every order of the drafts gives the same types. -/
theorem infer_perm (hids : (drafts.map Draft.id).Nodup) (h : others.Perm drafts)
    {found : List Draft} (hfound : infer drafts = (found, none)) :
    ∃ found', infer others = (found', none) ∧ found'.Perm found := by
  have hids' : (others.map Draft.id).Nodup := (h.map Draft.id).nodup_iff.mpr hids
  obtain ⟨found', hfound'⟩ : ∃ found', infer others = (found', none) := by
    refine (infer_eq_none_iff hids').mpr fun d hd => ?_
    obtain ⟨n, type, hlead⟩ := (infer_eq_none_iff hids).mp ⟨found, hfound⟩ d (h.mem_iff.mp hd)
    exact ⟨n, type, hlead.perm hids h.symm⟩
  refine ⟨found', hfound', ?_⟩
  -- each draft leads to one type, and to the same one in both orders
  have hself : Matched Eq others drafts := ⟨others, List.forall₂_same.mpr fun _ _ => rfl, h⟩
  obtain ⟨zs, hzs, hperm⟩ : Matched Eq found' found := by
    refine hself.forall₂ (infer_leadsTo hids' hfound') (infer_leadsTo hids hfound) ?_
    rintro d - _ _ _ rfl ⟨n, type, rfl, hlead⟩ ⟨m, type', rfl, hlead'⟩
    obtain ⟨-, rfl⟩ := (hlead.perm hids' h).unique hlead'
    rfl
  obtain rfl : found' = zs := by rwa [List.forall₂_eq_eq_eq] at hzs
  exact hperm

/-! ## Failures -/

/-- A draft without a type refers to another one; both are given by their paths. -/
def Refers (drafts : List Draft) (a b : String) : Prop :=
  ∃ d ∈ drafts, d.type = none ∧ d.id = a ∧ ∃ e ∈ drafts, e.id = b ∧ next? drafts d = some e

/-- Why a draft leads to no type. -/
inductive Stuck (drafts : List Draft) : Failure → Prop where
  /-- A draft on the way refers to a path that no draft has. -/
  | unknown {d : Draft} {r : Reference} : d ∈ drafts → d.type = none →
      d.value.text?.bind Reference.parse? = some r → (∀ e ∈ drafts, e.id ≠ r.target) →
      Stuck drafts (.issue (.ofNode (.unknownTarget r d.id) d.value))
  /-- A walk along references comes to a draft where it has been before. -/
  | circular {d : Draft} {walk : List String} {last : String} : d ∈ drafts → d.type = none →
      walk.head? = some d.id → (walk ++ [last]).IsChain (Refers drafts) → last ∈ walk →
      Stuck drafts (.issue (.ofNode (.circular (walk ++ [last])) d.value))

/-- A chain goes on to what its last item is related to. -/
theorem isChain_concat {α : Type} {R : α → α → Prop} {xs : List α} {x y : α} (h : xs.IsChain R)
    (hlast : xs.getLast? = some x) (hxy : R x y) : (xs ++ [y]).IsChain R :=
  h.append (.singleton y) (by simpa [hlast] using hxy)

/-- A reference between drafts that have got types was there before. -/
theorem refers_of_extends (hids : (drafts.map Draft.id).Nodup)
    (hext : List.Forall₂ Extends drafts others) {d e : Draft} (hd : d ∈ others)
    (hnone : d.type = none) (hnext : next? others d = some e) : Refers drafts d.id e.id := by
  have hids' : (others.map Draft.id).Nodup := ids_eq hext ▸ hids
  obtain ⟨r, hr, he, hid⟩ := (next?_eq_some_iff hids').mp hnext
  obtain ⟨d', hd', hdd⟩ := exists_left hext hd
  obtain ⟨e', he', hee⟩ := exists_left hext he
  refine ⟨d', hd', ?_, hdd.id_eq.symm, e', he', hee.id_eq.symm, ?_⟩
  · by_contra htyped
    exact hdd.typed htyped hnone
  · rw [next?_eq_some_iff hids]
    exact ⟨r, by rw [← hr, hdd.eq], he', by rw [← hee.id_eq, hid]⟩

/-- A chain that fails is a walk along references, from its start on. -/
theorem Follows.stuck (hids : (drafts.map Draft.id).Nodup)
    (hext : List.Forall₂ Extends drafts others) {start current : Draft} {chain : List String}
    {failure : Failure} (h : Follows others start chain current (.failed failure))
    (hstart : start ∈ others) (huntyped : start.type = none) (hcurrent : current ∈ others)
    (hhead : chain.head? = some start.id) (hlast : chain.getLast? = some current.id)
    (hwalk : chain.IsChain (Refers drafts)) : Stuck drafts failure := by
  -- the draft that a draft was before it got its type
  have hbefore : ∀ e ∈ others, e.type = none →
      ∃ d ∈ drafts, d.type = none ∧ d.id = e.id ∧ d.value = e.value := by
    intro e he hnone
    obtain ⟨d, hd, hde⟩ := exists_left hext he
    refine ⟨d, hd, ?_, hde.id_eq.symm, by rw [hde.eq]⟩
    by_contra htyped
    exact hde.typed htyped hnone
  have hids' : (others.map Draft.id).Nodup := ids_eq hext ▸ hids
  obtain ⟨outcome, houtcome⟩ : ∃ outcome, outcome = Outcome.failed failure := ⟨_, rfl⟩
  rw [← houtcome] at h
  induction h with
  | typed => cases houtcome
  | unknown hnone hr hfind =>
    cases houtcome
    obtain ⟨d, hd, hdnone, hid, hvalue⟩ := hbefore _ hcurrent hnone
    rw [← hid, ← hvalue]
    refine .unknown hd hdnone (hvalue ▸ hr) fun e he heq => ?_
    obtain ⟨e', he', hee⟩ := exists_right hext he
    exact find?_key_eq_none_iff.mp hfind e' he' (hee.id_eq.trans heq)
  | circular hnone hnext hin =>
    cases houtcome
    obtain ⟨d, hd, hdnone, hid, hvalue⟩ := hbefore start hstart huntyped
    rw [← hvalue]
    exact .circular hd hdnone (hid ▸ hhead) (isChain_concat hwalk hlast
      (refers_of_extends hids hext hcurrent hnone hnext)) hin
  | @next chain current target _ hnone hnext hnew _ ih =>
    obtain ⟨-, -, htarget, -⟩ := (next?_eq_some_iff hids').mp hnext
    refine ih htarget ?_ (by simp) (isChain_concat hwalk hlast
      (refers_of_extends hids hext hcurrent hnone hnext)) houtcome
    rw [List.head?_append, hhead]
    rfl

theorem Runs.stuck (hids : (drafts.map Draft.id).Nodup)
    (hext : List.Forall₂ Extends drafts others) {ids : List String} {found : List Draft}
    {failure : Failure} (h : Runs ids others (found, some failure)) : Stuck drafts failure := by
  obtain ⟨result, hresult⟩ : ∃ result, result = (found, some failure) := ⟨_, rfl⟩
  rw [← hresult] at h
  induction h with
  | done => cases hresult
  | typed _ _ _ ih => exact ih hext hresult
  | found _ _ _ _ ih => exact ih (extends_trans hext (extends_assign _ _ _)) hresult
  | failed hd hnone hfollows =>
    cases hresult
    exact hfollows.stuck hids hext hd hnone hd rfl rfl (.singleton _)

/-- A failure of inference shows a draft that leads to no type, and why. -/
theorem infer_stuck (hids : (drafts.map Draft.id).Nodup) (href : Referring drafts)
    {found : List Draft} {failure : Failure} (h : infer drafts = (found, some failure)) :
    Stuck drafts failure :=
  Runs.stuck hids (List.forall₂_same.mpr fun d _ => .refl d) (h ▸ runs_infer hids href)

/-- How an issue of inference reads: it names the reference that leads nowhere and the token that
has it, or all tokens of a walk one after the other. -/
inductive Worded : Problem → String → Prop where
  | unknown (r : Reference) (id : String) : Worded (.unknownTarget r id)
      ("Alias " ++ Problem.inMarks r.text ++
        " not found (referenced by " ++ Problem.inMarks id ++ ")")
  | circular (walk : List String) : Worded (.circular walk)
      ("Circular alias detected: " ++ " -> ".intercalate (walk.map Problem.inMarks))

/-! ## All outcomes -/

/-- What inference comes to when every draft without a type is a reference.  It ends by itself, and
it succeeds exactly when each of these drafts leads to a type.  Then all drafts have their types:
those they had, or else those that they lead to, in every order of the drafts, so that no value is
read without a type.  Otherwise the failure is about a reference that leads nowhere or about a walk
along references that meets itself, and its message lists the tokens of the walk. -/
theorem infer_outcome (hids : (drafts.map Draft.id).Nodup) (href : Referring drafts) :
    Runs (drafts.map Draft.id) drafts (infer drafts) ∧
      ((∃ found, infer drafts = (found, none)) ↔
        ∀ d ∈ drafts, d.type = none → ∃ n type, LeadsTo drafts n d type) ∧
      (∀ found, infer drafts = (found, none) →
        List.Forall₂ (fun d e => ∃ n type, e = { d with type := some type } ∧
          LeadsTo drafts n d type ∧ (d.type ≠ none → e = d)) drafts found ∧
        (∀ others, others.Perm drafts →
          ∃ found', infer others = (found', none) ∧ found'.Perm found) ∧
        ∀ e ∈ found, ∀ id, e.values ≠ .error (.fault (.untyped id))) ∧
      ∀ found failure, infer drafts = (found, some failure) →
        Stuck drafts failure ∧ ∃ i, failure = .issue i ∧ i.problem.kind = .reference ∧
          Worded i.problem i.problem.message := by
  refine ⟨runs_infer hids href, ?_, fun found h => ⟨?_, ?_, ?_⟩, fun found failure h => ?_⟩
  · rw [infer_eq_none_iff hids]
    refine ⟨fun h d hd _ => h d hd, fun h d hd => ?_⟩
    cases htype : d.type with
    | some type => exact ⟨0, type, .typed htype⟩
    | none => exact h d hd htype
  · refine (infer_leadsTo hids h).imp fun d e hde => ?_
    obtain ⟨n, type, rfl, hlead⟩ := hde
    refine ⟨n, type, rfl, hlead, fun htyped => ?_⟩
    obtain ⟨own, hown⟩ := Option.ne_none_iff_exists'.mp htyped
    obtain ⟨-, rfl⟩ := hlead.unique (.typed hown)
    rw [← hown]
  · exact fun others hothers => infer_perm hids hothers h
  · -- all drafts that are found have a type, so no value is reported for having none
    intro e he id hfault
    obtain ⟨type, htype⟩ := (infer_spec hids h).2 e he
    cases (Draft.reports_values htype).fault _ hfault
  · have hstuck := infer_stuck hids href h
    refine ⟨hstuck, ?_⟩
    cases hstuck with
    | unknown => exact ⟨_, rfl, rfl, .unknown _ _⟩
    | circular => exact ⟨_, rfl, rfl, .circular _⟩

/-- A draft of a value. -/
def draftOf (id : String) (type : Option TokenType) (value : Data) : Draft :=
  ⟨id, type, value.tree, value.tree, [], none, [], none⟩

/-- A length, a chain of two references to one of its modes, and a reference into the chain. -/
def joined : List Draft :=
  [draftOf "a" none (.text "\x7bb\x7d"), draftOf "b" none (.text "\x7bc#dark\x7d"),
    draftOf "c" (some .dimension) (.text "4px"), draftOf "d" none (.text "\x7bb\x7d")]

/-- Three references, of which the last two form a cycle. -/
def looped : List Draft :=
  [draftOf "a" none (.text "\x7bb\x7d"), draftOf "b" none (.text "\x7bc\x7d"),
    draftOf "c" none (.text "\x7bb\x7d")]

/-- The message that a failure is reported with. -/
def message? : Option Failure → Option String
  | some (.issue i) => some i.problem.message
  | _ => none

theorem message?_eq_some {failure : Option Failure} {text : String}
    (h : message? failure = some text) :
    ∃ i, failure = some (.issue i) ∧ i.problem.message = text := by
  unfold message? at h
  split at h
  · exact ⟨_, rfl, Option.some.inj h⟩
  · cases h

/-- For instance, the chain ends at the length, and the message of the cycle starts in front of it. -/
theorem infer_outcome_joined : ((joined.map Draft.id).Nodup ∧ Referring joined ∧
      Runs (joined.map Draft.id) joined (infer joined) ∧
      ∃ found, infer joined = (found, none) ∧ (∀ d ∈ found, d.type = some .dimension) ∧
        ∀ e ∈ found, ∀ id, e.values ≠ .error (.fault (.untyped id))) ∧
    (looped.map Draft.id).Nodup ∧ Referring looped ∧
      ∃ found i, infer looped = (found, some (.issue i)) ∧ Stuck looped (.issue i) ∧
        Worded i.problem i.problem.message ∧
        i.problem.message = "Circular alias detected: \"a\" -> \"b\" -> \"c\" -> \"b\"" := by
  constructor
  · have hids : (joined.map Draft.id).Nodup := by decide +kernel
    have href : Referring joined := by decide +kernel
    obtain ⟨hruns, -, hfound, -⟩ := infer_outcome hids href
    have hsome : (infer joined).2.isNone = true ∧
        ∀ d ∈ (infer joined).1, d.type = some .dimension := by decide +kernel
    have hinfer : infer joined = ((infer joined).1, none) :=
      Prod.ext rfl (Option.isNone_iff_eq_none.mp hsome.1)
    obtain ⟨-, -, hvalues⟩ := hfound _ hinfer
    exact ⟨hids, href, hruns, _, hinfer, hsome.2, hvalues⟩
  · have hids : (looped.map Draft.id).Nodup := by decide +kernel
    have href : Referring looped := by decide +kernel
    obtain ⟨-, -, -, hfailed⟩ := infer_outcome hids href
    have hmessage : message? (infer looped).2 =
        some "Circular alias detected: \"a\" -> \"b\" -> \"c\" -> \"b\"" := by decide +kernel
    obtain ⟨i, hfailure, htext⟩ := message?_eq_some hmessage
    have hinfer : infer looped = ((infer looped).1, some (.issue i)) := Prod.ext rfl hfailure
    obtain ⟨hstuck, _, ⟨⟩, -, hworded⟩ := hfailed _ _ hinfer
    exact ⟨hids, href, _, i, hinfer, hstuck, hworded, htext⟩

end DesignTokens.Inference
