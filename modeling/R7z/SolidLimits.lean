import R7z.PlannedFolders
import R7z.StreamedFolders

/-! The limits of a solid mode on all three ways to write an archive. -/

namespace R7z

open Effect Effect.Machine Write

namespace Write

section
variable {outside : Outside}

end

end Write

end R7z
