import EntityFetch.Assoc

/-!
# Environments

An environment gives values to the variables that are set in it. What a planner
reads of it are the variables that a configuration names (see
`EntityFetch.Config.Placeholder`) and those that settle logging (see
`EntityFetch.Logging`).
-/

namespace EntityFetch

/-- The values of the variables that are set. -/
abbrev Environment := String → Option String

namespace Environment

/-- The environment in which the variables of a list are set; a later value of a
    variable wins. -/
def ofList (entries : List (String × String)) : Environment :=
  fun name => (Assoc.ofList entries).lookup name

end Environment

end EntityFetch
