import PackedMovie.Proofs.Zlib.Stored
import PackedMovie.Swf.Compression

/-!
# Zlib as the codec of movies

The program compresses with the containers of this library. What is proved about movies holds with
every other codec as well.
-/
namespace PackedMovie.Zlib

instance : Swf.Codec where
  deflate := compress
  inflate := decompress
  inflate_deflate := decompress_compress

end PackedMovie.Zlib
