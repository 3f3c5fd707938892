/-!
# Services of a parameter store

A function in streaming form talks to its host through three calls: it *fetches* an input by
index, *commits* an output to a slot and *releases* a value it no longer needs.
-/

namespace ParamStream

inductive StoreService where
  | fetch
  | commit
  | release
deriving DecidableEq

namespace StoreService

/-- The name under which the host provides a service. -/
def name : StoreService → String
  | .fetch => "get_item"
  | .commit => "set_item"
  | .release => "release"

/-- The service that a host function of the given name provides. -/
def ofName? (s : String) : Option StoreService :=
  if s = fetch.name then some .fetch
  else if s = commit.name then some .commit
  else if s = release.name then some .release
  else none

@[simp] theorem ofName?_name (service : StoreService) : ofName? service.name = some service := by
  cases service <;> rfl

theorem ofName?_eq_some_iff {s : String} {service : StoreService} :
    ofName? s = some service ↔ s = service.name := by
  constructor
  · intro found
    simp only [ofName?] at found
    split at found
    · cases found; assumption
    · split at found
      · cases found; assumption
      · split at found
        · cases found; assumption
        · cases found
  · rintro rfl
    exact ofName?_name service

end StoreService

end ParamStream
