/-
  YamlSplice.Yaml.Fault — why a text has no value.

  Either the text is not a document at all, or it is one in which a scalar does not have the value
  that its tag promises.
-/

namespace YamlSplice.Yaml

inductive ScalarFault where
  /-- The text of a number, a date or a moment stands for none, or a code for no character. -/
  | noValue
  /-- A number without digits. -/
  | noDigits
  /-- A truth value by a word that is none. -/
  | unknownWord
  /-- A moment that is not written as one. -/
  | notMoment
  /-- A moment given by the default value of a mapping. -/
  | momentByMapping
  /-- A number or a code too large to handle. -/
  | tooLarge
  deriving DecidableEq, Repr

inductive Fault where
  | malformed
  | scalar (fault : ScalarFault)
  deriving DecidableEq, Repr

end YamlSplice.Yaml
