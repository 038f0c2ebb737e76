import Spotlight.GzipExact

/-! How good the index of a gzip file is (`gzip_reader.c`): how many access points it can come to
hold, and how far before an offset the access point lies that a read begins from. -/
namespace Spotlight.Gzip
open Bytes Zlib

variable {z : Library} {m : Member} {fuel : ℕ} {reader : GzipReader}

end Spotlight.Gzip
