/-
  YamlSplice.Proofs.Edit.Own — a document is not changed by what it holds.

  All that is needed of a format is that what it reads keeps its keys apart. The one value that does not
  agree with itself although all its scalars do is a collection that contains itself.
  - `applyAll_own`: entries of a document, set in it again, are all found to be there already.
  - `list_in_itself_not_kept`: a list that contains itself is set anew, and cannot be written.
-/

import Mathlib
import YamlSplice.Operations
import YamlSplice.Proofs.Edit.Outcome
import YamlSplice.Proofs.Yaml.Keys

namespace YamlSplice

/-- What is read has no two keys in one mapping that are the same. -/
def Format.KeepsKeysApart (format : Format) : Prop :=
  ∀ {text value}, format.read text = .ok value → value.KeysApart

theorem Format.yaml_keepsKeysApart : Format.yaml.KeepsKeysApart := by
  intro text value h
  simp only [Format.yaml] at h
  cases hread : Yaml.read text with
  | error fault => rw [hread] at h; cases h
  | ok found => rw [hread] at h; cases h; exact Yaml.read_keysApart hread

namespace Edit

/-- Entries of a document are set in it without a change, in whatever order and number, and however they
    are spelled. Its keys are text, and none of its values is absent or of a kind that cannot be set. -/
theorem applyAll_own {format : Format} {keep : Bool} {text : Text} {entries updates : List (Value × Value)}
    (hformat : format.KeepsKeysApart) (hread : format.read (Text.closeLine text) = .ok (.map entries))
    (hkeys : ∀ e ∈ entries, ∃ name, e.1 = .str name)
    (hkinds : ∀ e ∈ entries, e.2.treatment = .replace ∨ e.2.treatment = .merge)
    (hsteady : ∀ e ∈ entries, e.2.Steady) (hupdates : updates ⊆ entries) :
    (applyAll format keep updates text).result = .ok text := by
  have hplain : ∀ e ∈ entries, e.1.isPlainKey = true := by
    intro e he
    obtain ⟨name, hname⟩ := hkeys e he
    rw [hname]
    rfl
  cases hformat hread with
  | leaf hleaf => cases hleaf
  | map hapart hvalues =>
    refine applyAll_same fun u hu => ?_
    have he := hupdates hu
    obtain ⟨name, hname⟩ := hkeys u he
    have hfound := Value.valueUnder?_own hplain hapart he
    rw [hname] at hfound ⊢
    exact (Outcome.unchanged entries u.2 hread (hkinds u he) hfound
      ((hsteady u he).agrees (hvalues u he))).apply_eq_ok

/-- The entries in another order. Two keys below the first read the same, and the last line has no newline. -/
theorem applyAll_own_reordered :
    (applyAll Format.yaml false
      [(.str ['a'], .str ['n', 'o']), (.str ['p'], .map [(.int 1, .str ['x']), (.str ['1'], .null)])]
      "p:\n 1: x\n '1': ~\na: no".toList).result = .ok "p:\n 1: x\n '1': ~\na: no".toList := by
  have hwhole : Text.closeLine "p:\n 1: x\n '1': ~\na: no".toList = "p:\n 1: x\n '1': ~\na: no\n".toList := by decide
  have hread : Format.yaml.read (Text.closeLine "p:\n 1: x\n '1': ~\na: no".toList) =
      .ok (.map [(.str ['p'], .map [(.int 1, .str ['x']), (.str ['1'], .null)]), (.str ['a'], .str ['n', 'o'])]) := by
    rw [hwhole]
    cbv
  have htext : ∀ name, Value.Steady (.str name) := fun name => .scalar rfl (Value.same_of_isPlainKey rfl)
  have hbelow : Value.Steady (.map [(.int 1, .str ['x']), (.str ['1'], .null)]) := by
    refine .map (by simp [Value.isPlainKey]) ?_
    simpa using ⟨htext ['x'], .scalar rfl (Value.same_of_isPlainKey rfl)⟩
  refine applyAll_own Format.yaml_keepsKeysApart hread ?_ ?_ ?_ ?_
  · simp
  · simp [Value.treatment]
  · simpa using ⟨hbelow, htext ['n', 'o']⟩
  · simp

/-- The value below the key is a list whose one item is the list itself. Its key is text, it is of a kind that
    can be set, and it has no scalars at all; but it does not agree with itself. -/
theorem list_in_itself_not_kept :
    Format.yaml.read "a: &x [*x]\n".toList = .ok (.map [(.str ['a'], .list [.back .sequence])]) ∧
      (Value.list [.back .sequence]).treatment = .replace ∧
      (applyAll Format.yaml false [(.str ['a'], .list [.back .sequence])] "a: &x [*x]\n".toList).result ≠
        .ok "a: &x [*x]\n".toList := by
  refine ⟨by cbv, rfl, ?_⟩
  have hresult : (applyAll Format.yaml false [(.str ['a'], .list [.back .sequence])] "a: &x [*x]\n".toList).result =
      .error (.unwritableEntry ['a'] (.list [.back .sequence]) (.back .sequence)) := by cbv
  rw [hresult]
  intro h
  cases h

end Edit
end YamlSplice
