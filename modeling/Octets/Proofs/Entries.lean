import Octets.Bytes
import Std.Data.TreeMap.Lemmas

/-!
# Entries with repeated names

Heads and forms are read as entries that are put under their names one after the
other, and a later entry of a name takes the place of an earlier one.

## Main definitions

* `lastValue?` — the value of the last of several entries with one name

## Main results

* `getElem?_insertMany` — what is kept under a name is its last value
-/

namespace Octets

variable {β : Type}

/-- The value of the last entry with a name. -/
def lastValue? (entries : List (String × β)) (name : String) : Option β :=
  (entries.filter fun entry => entry.1 = name).getLast?.map Prod.snd

@[simp] theorem lastValue?_nil (name : String) : lastValue? ([] : List (String × β)) name = none :=
  rfl

theorem lastValue?_cons (key : String) (value : β) (entries : List (String × β)) (name : String) :
    lastValue? ((key, value) :: entries) name =
      (lastValue? entries name).or (if key = name then some value else none) := by
  unfold lastValue?
  by_cases same : key = name
  · rw [List.filter_cons_of_pos (by simpa using same), List.getLast?_cons]
    cases (entries.filter fun entry => entry.1 = name).getLast? <;> simp [same]
  · rw [List.filter_cons_of_neg (by simpa using same), if_neg same, Option.or_none]

/-- What is kept under a name is its last value. -/
theorem getElem?_insertMany (map : Std.TreeMap String β) (entries : List (String × β))
    (name : String) :
    (map.insertMany entries)[name]? = (lastValue? entries name).or map[name]? := by
  induction entries generalizing map with
  | nil => rw [Std.TreeMap.insertMany_nil, lastValue?_nil, Option.none_or]
  | cons entry entries ih =>
    obtain ⟨key, value⟩ := entry
    rw [Std.TreeMap.insertMany_cons, ih, lastValue?_cons, Std.TreeMap.getElem?_insert,
      Option.or_assoc]
    -- Left is what the first entry comes to if no later one has its name.
    by_cases same : key = name
    · simp [same]
    · have differ : compare key name ≠ .eq :=
        fun equal => same (Std.LawfulEqOrd.eq_of_compare equal)
      simp [same, differ]

end Octets
