import DesignTokens.Proofs.Output.Store
import Mathlib.Data.Finset.Card

/-!
# Selecting fragments

A plugin contributes fragments to the store one after the other, and asks for some of them later.
The address of a fragment is what tells it apart from others: its token, format, name, mode and
rendition.  For every address the store has one fragment, in the order in which the addresses first
came up, with the text that was contributed last.

## Main statement

* `select_contributed`: what is selected after any contributions, and what one more contribution
  leaves as it is.
-/

namespace DesignTokens.Output

/-! ## Contributions -/

/-- A piece of output as a plugin contributes it. -/
structure Contribution where
  /-- The path of the token. -/
  token : String
  format : String
  value : String
  /-- The name of the piece; without one, or with an empty one, it has that of the token. -/
  name? : Option String := none
  mode : String := defaultMode
  variant : Option String := none

/-- What tells a fragment apart from others. -/
structure Address where
  token : String
  format : String
  name : String
  mode : String
  variant : Option String
deriving DecidableEq

namespace Contribution

/-- The fragment that is set for a contribution. -/
def fragment (c : Contribution) : Fragment :=
  ⟨c.token, c.format, Fragment.nameOf c.token c.name?, c.value, c.mode, c.variant⟩

def address (c : Contribution) : Address :=
  ⟨c.token, c.format, (c.name?.filter (· ≠ "")).getD c.token, c.mode, c.variant⟩

end Contribution

def Fragment.address (f : Fragment) : Address := ⟨f.token, f.format, f.name, f.mode, f.variant⟩

theorem Fragment.key_eq_iff {f g : Fragment} : f.key = g.key ↔ f.address = g.address := by
  simp [key, address]

theorem Contribution.address_fragment (c : Contribution) : c.fragment.address = c.address := by
  have hname : Fragment.nameOf c.token c.name? = (c.name?.filter (· ≠ "")).getD c.token := by
    cases c.name? with
    | none => rfl
    | some name => by_cases h : name = "" <;> simp [Fragment.nameOf, Option.filter, h]
  rw [fragment, Fragment.address, address, hname]

namespace Fragments

/-- Whether a query asks for the fragment of an address. -/
def Query.Asks (q : Query) (a : Address) : Prop :=
  a.format = q.format ∧ (∀ globs ∈ q.tokens, Text.fitsAny globs a.token = true) ∧
    (∀ mode ∈ q.mode, a.mode = mode) ∧ ∀ variant ∈ q.variant, a.variant = some variant

instance (q : Query) : DecidablePred q.Asks := fun _ => inferInstanceAs (Decidable (_ ∧ _))

theorem Query.accepts_iff {q : Query} {f : Fragment} :
    q.accepts f = true ↔ q.Asks f.address := by
  simp only [accepts, Asks, Fragment.address, Bool.and_eq_true, decide_eq_true_eq,
    Option.all_eq_true, Option.mem_def, and_assoc, eq_comm (b := f.mode), eq_comm (b := f.variant)]

/-! ## Addresses in the store -/

theorem mem_addresses {store : Fragments} {f : Fragment} :
    f.address ∈ store.map Fragment.address ↔ f.key ∈ keys store := by
  simp only [keys, List.mem_map, Fragment.key_eq_iff]

/-- One more fragment adds its address at the end, unless it is there already. -/
theorem addresses_set (f : Fragment) (store : Fragments) :
    (store.set f).map Fragment.address =
      if f.address ∈ store.map Fragment.address then store.map Fragment.address
      else store.map Fragment.address ++ [f.address] := by
  have haddress (g : Fragment) : g.key.address = g.address := rfl
  have hkeys (store : Fragments) : (keys store).map Fragment.address = store.map Fragment.address := by
    rw [keys, List.map_map]
    exact List.map_congr_left fun g _ => haddress g
  rw [← hkeys, keys_set]
  simp only [mem_addresses]
  split <;> simp [hkeys, haddress]

theorem eraseDups_concat {α : Type} [DecidableEq α] (xs : List α) (x : α) :
    (xs ++ [x]).eraseDups = if x ∈ xs then xs.eraseDups else xs.eraseDups ++ [x] := by
  rw [List.eraseDups_append]
  split <;> simp_all [List.removeAll, List.eraseDups_cons]

/-- The addresses of the store are those that were set, in the order in which they first came up. -/
theorem addresses_setAll (fs : List Fragment) :
    (setAll fs []).map Fragment.address = (fs.map Fragment.address).eraseDups := by
  induction fs using List.reverseRecOn with
  | nil => rfl
  | append_singleton fs f ih =>
    have hlast : setAll (fs ++ [f]) [] = (setAll fs []).set f := by
      rw [setAll, setAll, List.foldl_append]
      rfl
    rw [hlast, addresses_set, ih, List.map_append, List.map_singleton, eraseDups_concat]
    simp only [List.mem_eraseDups]

theorem nodup_addresses (fs : List Fragment) : ((setAll fs []).map Fragment.address).Nodup := by
  have hkeys : (keys (setAll fs [])).Nodup := nodup_setAll (by simp [keys]) fs
  rw [keys, List.nodup_iff_pairwise_ne, List.pairwise_map] at hkeys
  rw [List.nodup_iff_pairwise_ne, List.pairwise_map]
  exact hkeys.imp fun hne heq => hne (Fragment.key_eq_iff.mpr heq)

/-- There are as many fragments as there are addresses. -/
theorem length_setAll (fs : List Fragment) :
    (setAll fs []).length = (fs.map Fragment.address).toFinset.card := by
  have hsame : (fs.map Fragment.address).toFinset =
      ((setAll fs []).map Fragment.address).toFinset := by
    rw [addresses_setAll]
    ext a
    simp only [List.mem_toFinset, List.mem_eraseDups]
  rw [hsame, List.toFinset_card_of_nodup (nodup_addresses fs), List.length_map]

/-- A fragment of the store is the last one that was set for its address. -/
theorem last_of_mem_setAll {fs : List Fragment} {f : Fragment} (h : f ∈ setAll fs []) :
    ∃ before after, fs = before ++ f :: after ∧ ∀ g ∈ after, g.address ≠ f.address := by
  have hnodup : (keys (setAll fs [])).Nodup := nodup_setAll (by simp [keys]) fs
  have htext : textOf? f.key (setAll fs []) = some f.value := by
    rw [textOf?, (find?_key_eq_some_iff hnodup).mpr ⟨h, rfl⟩]
    rfl
  rw [textOf?_setAll, show textOf? f.key [] = none from rfl, Option.or_none, textOf?,
    Option.map_eq_some_iff] at htext
  obtain ⟨g, hfind, hvalue⟩ := htext
  obtain ⟨hkey, back, front, hsplit, hback⟩ := List.find?_eq_some_iff_append.mp hfind
  obtain rfl : g = f := Fragment.eq_of_key (of_decide_eq_true hkey) hvalue
  refine ⟨front.reverse, back.reverse, ?_, fun e he heq => ?_⟩
  · rw [← List.reverse_reverse fs, hsplit, List.reverse_append, List.reverse_cons,
      List.append_assoc, List.singleton_append]
  · have hother := hback e (List.mem_reverse.mp he)
    rw [Fragment.key_eq_iff.mpr heq] at hother
    simp at hother

/-- Setting a fragment leaves those with other addresses where they are. -/
theorem getElem?_set_of_ne {f g : Fragment} (h : g.address ≠ f.address) (store : Fragments)
    (i : Nat) : (store.set f)[i]? = some g ↔ store[i]? = some g := by
  have hne : ¬ f = g := fun heq => h (heq ▸ rfl)
  induction store generalizing i with
  | nil => cases i <;> simp [set, hne]
  | cons e store ih =>
    rw [set]
    split
    · rename_i hsame
      -- the fragment that is replaced has the address of the new one
      have he : ¬ e = g := fun heq =>
        h (heq ▸ Fragment.key_eq_iff.mp (Fragment.sameKey_iff.mp hsame))
      cases i <;> simp [hne, he]
    · cases i with
      | zero => simp
      | succ i => simpa using ih i

/-! ## Selections -/

theorem addresses_select (q : Query) (store : Fragments) :
    (store.select q).map Fragment.address = (store.map Fragment.address).filter q.Asks := by
  rw [List.filter_map, select]
  refine congrArg _ (List.filter_congr fun f _ => ?_)
  rw [Bool.eq_iff_iff, Query.accepts_iff]
  simp

end Fragments

open Fragments

/-- The store after contributions, one after the other. -/
def contributed (cs : List Contribution) : Fragments := setAll (cs.map Contribution.fragment) []

theorem addresses_contributions (cs : List Contribution) :
    (cs.map Contribution.fragment).map Fragment.address = cs.map Contribution.address := by
  rw [List.map_map]
  exact List.map_congr_left fun c _ => c.address_fragment

/-- After any contributions a query selects one fragment for each address that it asks for, in the
order in which these addresses first came up, and each with the text that was contributed last.  The
store has as many fragments as there are addresses.  One more contribution changes neither the
fragment of another address nor its position. -/
theorem select_contributed (cs : List Contribution) (q : Query) :
    ((contributed cs).select q).map Fragment.address =
        (cs.map Contribution.address).eraseDups.filter q.Asks ∧
      (∀ f ∈ (contributed cs).select q, ∃ before c after, cs = before ++ c :: after ∧
        c.address = f.address ∧ c.value = f.value ∧ ∀ later ∈ after, later.address ≠ f.address) ∧
      (contributed cs).length = (cs.map Contribution.address).toFinset.card ∧
      ∀ (c : Contribution) (f : Fragment) (i : Nat), f.address ≠ c.address →
        ((contributed (cs ++ [c]))[i]? = some f ↔ (contributed cs)[i]? = some f) := by
  refine ⟨?_, fun f hf => ?_, ?_, fun c f i hne => ?_⟩
  · rw [addresses_select, contributed, addresses_setAll, addresses_contributions]
  · obtain ⟨before, after, hsplit, hafter⟩ := last_of_mem_setAll (List.mem_filter.mp hf).1
    obtain ⟨front, rest, rfl, -, hrest⟩ := List.map_eq_append_iff.mp hsplit
    obtain ⟨c, back, rfl, rfl, rfl⟩ := List.map_eq_cons_iff.mp hrest
    refine ⟨front, c, back, rfl, c.address_fragment.symm, rfl, fun later hlater => ?_⟩
    rw [← later.address_fragment]
    exact hafter _ (List.mem_map_of_mem hlater)
  · rw [contributed, length_setAll, addresses_contributions]
  · have hlast : contributed (cs ++ [c]) = (contributed cs).set c.fragment := by
      rw [contributed, contributed, setAll, setAll, List.map_append, List.foldl_append]
      rfl
    rw [hlast]
    exact getElem?_set_of_ne (by rwa [c.address_fragment]) _ i

/-- For instance, a text for an empty name replaces the one that was set without a name, and leaves
the others behind it; a pattern for paths of one character leaves out the longer path. -/
theorem select_contributed_twice :
    let cs : List Contribution := [{ token := "a", format := "css", value := "1" },
      { token := "long", format := "css", value := "4" },
      { token := "b", format := "css", value := "2" },
      { token := "a", format := "css", value := "3", name? := some "" }]
    let f : Fragment := ⟨"a", "css", "a", "3", defaultMode, none⟩
    let g : Fragment := ⟨"b", "css", "b", "2", defaultMode, none⟩
    let q : Query := ⟨"css", some ["?"], none, none⟩
    (contributed cs).length = 3 ∧
      ((contributed cs).select q).map Fragment.address = [f.address, g.address] ∧
      f ∈ (contributed cs).select q ∧ g.address ≠ (cs[3]).address ∧
      (∃ before c after, cs = before ++ c :: after ∧ c.address = f.address ∧ c.value = f.value ∧
        ∀ later ∈ after, later.address ≠ f.address) ∧
      ((contributed cs)[2]? = some g ↔ (contributed (cs.take 3))[2]? = some g) := by
  intro cs f g q
  have hmem : f ∈ (contributed cs).select q := by decide +kernel
  have hne : g.address ≠ (cs[3]).address := by decide
  have hasked : ((cs.map Contribution.address).eraseDups.filter q.Asks) =
      [f.address, g.address] := by decide +kernel
  have hcard : (cs.map Contribution.address).toFinset.card = 3 := by decide +kernel
  obtain ⟨haddresses, hvalues, hlength, -⟩ := select_contributed cs q
  exact ⟨hlength.trans hcard, haddresses.trans hasked, hmem, hne, hvalues f hmem,
    (select_contributed (cs.take 3) q).2.2.2 cs[3] g 2 hne⟩

end DesignTokens.Output
