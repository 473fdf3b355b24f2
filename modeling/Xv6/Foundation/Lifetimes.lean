import Mathlib.Logic.Function.Basic

/-! # Lifetimes

A log of beginnings and ends. Each key begins with a value, ends with the same value, and
does not begin again before it has ended. -/

namespace Foundation

/-- A key's lifetime begins or ends. -/
inductive HoldingEvent (Key Value : Type)
  | begins (key : Key) (value : Value)
  | ends (key : Key) (value : Value)

/-- The log is in order, and `live` are the lifetimes that have not ended. -/
inductive Lifetimes {Key Value : Type} [DecidableEq Key] :
    List (HoldingEvent Key Value) → (live : Key → Option Value) → Prop
  | nil : Lifetimes [] fun _ => none
  | begins {log : List (HoldingEvent Key Value)} {live : Key → Option Value} {key : Key}
      (value : Value) (before : Lifetimes log live) (fresh : live key = none) :
      Lifetimes (log ++ [.begins key value]) (Function.update live key (some value))
  | ends {log : List (HoldingEvent Key Value)} {live : Key → Option Value} {key : Key}
      {value : Value} (before : Lifetimes log live) (cur : live key = some value) :
      Lifetimes (log ++ [.ends key value]) (Function.update live key none)

end Foundation
